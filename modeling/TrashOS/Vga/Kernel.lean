import TrashOS.Lib.Loop
import TrashOS.Lib.TextLayout
import TrashOS.Lib.Word

/-!
# The text mode driver of the kernel (`vga.c`)

The driver keeps one linear position.  It scrolls eagerly after a newline and
lazily after a row that was filled: then `vga_pos` stays at `VGA_SIZE` and the
next `vga_putc` scrolls first.

The model writes down every store the driver makes, to the buffer or to
`vga_pos`, in `stores`.  Nothing reads that list back; it is there so that bounds
can be stated about all indices and all positions, also those inside a call.

## Main results

* `vgaPutc_rests` — one symbol takes a screen that displays a text to one that
  displays the text with the symbol put in, settled or with a scroll pending.
* `vgaWrite_displays` — the run lemma.
* `vgaWrite_shows` — from a cleared screen, the buffer holds the last 25 rows.
-/

namespace TrashOS

open TextLayout

/-- `VGA_HEIGHT_DEFAULT` -/
abbrev vgaHeightDefault : ℕ := 25

/-- `VGA_WIDTH_DEFAULT` -/
abbrev vgaWidthDefault : ℕ := 80

/-- `static size_t VGA_WIDTH`, never assigned. -/
abbrev vgaWidth : ℕ := vgaWidthDefault

/-- `static size_t VGA_SIZE`, never assigned. -/
abbrev vgaSize : ℕ := vgaHeightDefault * vgaWidthDefault

theorem vgaWidth_eq : vgaWidth = 80 := rfl

theorem vgaSize_eq : vgaSize = 2000 := rfl

theorem vgaWidth_mul (n : ℕ) : vgaWidth * n = 80 * n := rfl

theorem mod_vgaWidth (n : ℕ) : n % vgaWidth = n % 80 := rfl

/-- `VGA_COLOR_BLACK` -/
abbrev vgaColorBlack : UInt8 := 0

/-- `VGA_COLOR_LIGHT_GREY` -/
abbrev vgaColorLightGrey : UInt8 := 7

/-- `VGA_COLOR_DEFAULT` -/
def vgaColorDefault : UInt8 := vgaColorLightGrey ||| vgaColorBlack <<< 4

/-- `'\n'`. -/
abbrev newline : UInt8 := 10

/-- `' '`. -/
abbrev space : UInt8 := 32

/-- `vga_entry`: the symbol in the low byte, the colour in the high byte. -/
def vgaEntry (uc color : UInt8) : UInt16 := uc.toUInt16 ||| color.toUInt16 <<< 8

/-- The symbol of an entry. -/
def entrySymbol (entry : UInt16) : UInt8 := entry.toUInt8

theorem entrySymbol_vgaEntry (uc color : UInt8) : entrySymbol (vgaEntry uc color) = uc := by
  apply UInt8.toBitVec_inj.mp
  unfold entrySymbol vgaEntry
  ext i
  simp

/-- A store of the driver. -/
inductive VgaStore where
  /-- `vga_buffer[index] = …` -/
  | cell (index : ℕ)
  /-- `vga_pos = value` -/
  | position (value : ℕ)

/-- The cell lies in the buffer, the position is at most one past it. -/
def VgaStore.InBounds : VgaStore → Prop
  | .cell index => index < vgaSize
  | .position value => value ≤ vgaSize

/-- The static variables of `vga.c`, the memory `vga_buffer` points to, and the stores made. -/
structure Vga where
  vgaBuffer : ℕ → UInt16
  vgaPos : ℕ
  vgaColor : UInt8
  stores : List VgaStore

namespace Vga

/-- `vga_buffer[index] = entry`. -/
def setCell (index : ℕ) (entry : UInt16) (s : Vga) : Vga :=
  { s with
    vgaBuffer := Function.update s.vgaBuffer index entry
    stores := .cell index :: s.stores }

/-- `vga_pos = value`. -/
def setPos (value : ℕ) (s : Vga) : Vga :=
  { s with vgaPos := value, stores := .position value :: s.stores }

@[simp] theorem setCell_buffer (i : ℕ) (e : UInt16) (s : Vga) :
    (s.setCell i e).vgaBuffer = Function.update s.vgaBuffer i e := rfl

@[simp] theorem setCell_pos (i : ℕ) (e : UInt16) (s : Vga) :
    (s.setCell i e).vgaPos = s.vgaPos := rfl

@[simp] theorem setCell_color (i : ℕ) (e : UInt16) (s : Vga) :
    (s.setCell i e).vgaColor = s.vgaColor := rfl

@[simp] theorem setPos_buffer (v : ℕ) (s : Vga) : (s.setPos v).vgaBuffer = s.vgaBuffer := rfl

@[simp] theorem setPos_pos (v : ℕ) (s : Vga) : (s.setPos v).vgaPos = v := rfl

@[simp] theorem setPos_color (v : ℕ) (s : Vga) : (s.setPos v).vgaColor = s.vgaColor := rfl

end Vga

/-- `vga_putentryat` -/
def vgaPutentryat (c color : UInt8) (pos : ℕ) (s : Vga) : Vga :=
  s.setCell pos (vgaEntry c color)

/-- `vga_scrolldown`: the rows move up in place, the last `lines` rows are blanked. -/
def vgaScrolldown (lines : ℕ) (s : Vga) : Vga :=
  let shift := Word32.mul lines vgaWidth
  let kept := Word32.sub vgaSize (Word32.mul vgaWidth lines)
  let moved := Loop.upto kept
    (fun p t => t.setCell p (t.vgaBuffer (Word32.add p shift))) s
  let cleared := Loop.upto (vgaSize - kept)
    (fun p t => vgaPutentryat space t.vgaColor (kept + p) t) moved
  cleared.setPos (Word32.sub cleared.vgaPos shift)

/-- `vga_linebreak` -/
def vgaLinebreak (s : Vga) : Vga :=
  let broken := s.setPos (Word32.add s.vgaPos (vgaWidth - s.vgaPos % vgaWidth))
  if broken.vgaPos = vgaSize then vgaScrolldown 1 broken else broken

/-- `vga_putc` -/
def vgaPutc (c : UInt8) (s : Vga) : Vga :=
  let t := if vgaSize ≤ s.vgaPos then vgaScrolldown 1 s else s
  if c = newline then vgaLinebreak t
  else
    let put := vgaPutentryat c t.vgaColor t.vgaPos t
    put.setPos (Word32.add put.vgaPos 1)

/-- `vga_write(data, size)` for the `size` bytes at `data`. -/
def vgaWrite (data : List UInt8) (s : Vga) : Vga :=
  data.foldl (fun t c => vgaPutc c t) s

/-- `vga_clear` -/
def vgaClear (s : Vga) : Vga :=
  Loop.upto vgaSize (fun p t => vgaPutentryat space t.vgaColor p t) s

/-- `vga_set_position` -/
def vgaSetPosition (row col : ℕ) (s : Vga) : Vga :=
  s.setPos (Word32.add (Word32.mul vgaWidth row) col)

/-- `vga_reset` -/
def vgaReset (s : Vga) : Vga := vgaSetPosition 0 0 (vgaClear s)

theorem vgaWrite_append (l r : List UInt8) (s : Vga) :
    vgaWrite (l ++ r) s = vgaWrite r (vgaWrite l s) := List.foldl_append

/-! ## The stores of a call -/

/-- From `s` to `t` the driver made only stores within bounds. -/
def StoresInBounds (s t : Vga) : Prop :=
  ∃ new, t.stores = new ++ s.stores ∧ ∀ w ∈ new, w.InBounds

namespace StoresInBounds

variable {s t u : Vga}

theorem refl (s : Vga) : StoresInBounds s s := ⟨[], rfl, by simp⟩

theorem trans (first : StoresInBounds s t) (second : StoresInBounds t u) :
    StoresInBounds s u := by
  obtain ⟨new, stores, bound⟩ := first
  obtain ⟨newer, stores', bound'⟩ := second
  refine ⟨newer ++ new, by rw [stores', stores, List.append_assoc], ?_⟩
  intro w mem
  exact (List.mem_append.mp mem).elim (bound' w) (bound w)

theorem setCell {index : ℕ} (inside : index < vgaSize) (entry : UInt16) (s : Vga) :
    StoresInBounds s (s.setCell index entry) := by
  refine ⟨[.cell index], rfl, ?_⟩
  intro w mem
  rw [List.mem_singleton.mp mem]
  exact inside

theorem setPos {value : ℕ} (inside : value ≤ vgaSize) (s : Vga) :
    StoresInBounds s (s.setPos value) := by
  refine ⟨[.position value], rfl, ?_⟩
  intro w mem
  rw [List.mem_singleton.mp mem]
  exact inside

end StoresInBounds

/-! ## The loops -/

/-- A loop painted some cells: position and colour are as before. -/
structure Paints (s t : Vga) : Prop where
  pos : t.vgaPos = s.vgaPos
  color : t.vgaColor = s.vgaColor
  stores : StoresInBounds s t

namespace Paints

variable {s t u : Vga}

theorem refl (s : Vga) : Paints s s := ⟨rfl, rfl, .refl s⟩

theorem trans (first : Paints s t) (second : Paints t u) : Paints s u :=
  ⟨second.pos.trans first.pos, second.color.trans first.color, first.stores.trans second.stores⟩

theorem setCell {index : ℕ} (inside : index < vgaSize) (entry : UInt16) (s : Vga) :
    Paints s (s.setCell index entry) := ⟨rfl, rfl, .setCell inside entry s⟩

end Paints

/-- A loop that stores one symbol in each of `n` cells from `base` on. -/
theorem upto_fill {n base : ℕ} (fits : base + n ≤ vgaSize) (c : UInt8) (s : Vga) :
    (∀ p, (Loop.upto n (fun p u => vgaPutentryat c u.vgaColor (base + p) u) s).vgaBuffer p =
      if base ≤ p ∧ p < base + n then vgaEntry c s.vgaColor else s.vgaBuffer p) ∧
    Paints s (Loop.upto n (fun p u => vgaPutentryat c u.vgaColor (base + p) u) s) := by
  refine Loop.upto_invariant (motive := fun k (t : Vga) => (∀ p, t.vgaBuffer p =
      if base ≤ p ∧ p < base + k then vgaEntry c s.vgaColor else s.vgaBuffer p) ∧ Paints s t)
    n ⟨fun p => (if_neg (by omega)).symm, .refl s⟩ ?_
  rintro k hk t ⟨cells, paints⟩
  refine ⟨fun p => ?_, paints.trans (.setCell (by omega) _ t)⟩
  unfold vgaPutentryat
  rw [Vga.setCell_buffer, Function.update_apply, paints.color, cells]
  by_cases here : p = base + k
  · rw [if_pos here, if_pos (by omega)]
  · rw [if_neg here]
    exact if_congr (by omega) rfl rfl

/-- The copying loop of a scroll: no cell is overwritten before it was read. -/
theorem upto_copy {n shift : ℕ} (fits : n + shift ≤ vgaSize) (s : Vga) :
    (∀ p, (Loop.upto n
        (fun p u => u.setCell p (u.vgaBuffer (Word32.add p shift))) s).vgaBuffer p =
      if p < n then s.vgaBuffer (p + shift) else s.vgaBuffer p) ∧
    Paints s (Loop.upto n (fun p u => u.setCell p (u.vgaBuffer (Word32.add p shift))) s) := by
  refine Loop.upto_invariant (motive := fun k (t : Vga) => (∀ p, t.vgaBuffer p =
      if p < k then s.vgaBuffer (p + shift) else s.vgaBuffer p) ∧ Paints s t)
    n ⟨fun p => (if_neg (by omega)).symm, .refl s⟩ ?_
  rintro k hk t ⟨cells, paints⟩
  have word : k + shift < 2 ^ 32 := lt_of_lt_of_le (Nat.add_lt_add_right hk shift)
    (fits.trans (by decide))
  refine ⟨fun p => ?_, paints.trans (.setCell (by omega) _ t)⟩
  rw [Vga.setCell_buffer, Function.update_apply, Word32.add_eq word, cells p,
    cells (k + shift)]
  by_cases here : p = k
  · rw [if_pos here, if_neg (by omega), if_pos (by omega), here]
  · rw [if_neg here]
    exact if_congr (by omega) rfl rfl

/-- All that `vga_scrolldown(1)` does. -/
theorem vgaScrolldown_one {s : Vga} (low : vgaWidth ≤ s.vgaPos) (high : s.vgaPos ≤ vgaSize) :
    (∀ p < vgaSize - vgaWidth,
      (vgaScrolldown 1 s).vgaBuffer p = s.vgaBuffer (p + vgaWidth)) ∧
    (∀ p < vgaSize, vgaSize - vgaWidth ≤ p →
      (vgaScrolldown 1 s).vgaBuffer p = vgaEntry space s.vgaColor) ∧
    (vgaScrolldown 1 s).vgaPos = s.vgaPos - vgaWidth ∧
    (vgaScrolldown 1 s).vgaColor = s.vgaColor ∧ StoresInBounds s (vgaScrolldown 1 s) := by
  have width := vgaWidth_eq
  have size := vgaSize_eq
  have shift : Word32.mul 1 vgaWidth = vgaWidth := Word32.mul_eq (by decide)
  have kept : Word32.sub vgaSize (Word32.mul vgaWidth 1) = 1920 := by
    rw [Word32.mul_eq (by decide), Word32.sub_eq (by decide) (by decide)]
    omega
  unfold vgaScrolldown
  simp only [shift, kept]
  obtain ⟨cells, paints⟩ := upto_copy (show 1920 + vgaWidth ≤ vgaSize by decide) s
  generalize Loop.upto 1920
    (fun p u => u.setCell p (u.vgaBuffer (Word32.add p vgaWidth))) s = moved at cells paints ⊢
  obtain ⟨cells', paints'⟩ :=
    upto_fill (show 1920 + (vgaSize - 1920) ≤ vgaSize by decide) space moved
  generalize Loop.upto (vgaSize - 1920)
    (fun p u => vgaPutentryat space u.vgaColor (1920 + p) u) moved = cleared at cells' paints' ⊢
  have pos : Word32.sub cleared.vgaPos vgaWidth = s.vgaPos - vgaWidth := by
    rw [paints'.pos, paints.pos, Word32.sub_eq low (by omega)]
  have whole := paints.trans paints'
  rw [pos]
  refine ⟨fun p hp => ?_, fun p hp last => ?_, Vga.setPos_pos _ _, whole.color,
    whole.stores.trans (.setPos (by omega) _)⟩
  · rw [Vga.setPos_buffer, cells' p, if_neg (by omega), cells p, if_pos (by omega)]
  · rw [Vga.setPos_buffer, cells' p, if_pos (by omega), paints.color]

/-- Inside one call and across calls, all stores are within bounds. -/
theorem vgaPutc_bounded (c : UInt8) {s : Vga} (bound : s.vgaPos ≤ vgaSize) :
    (vgaPutc c s).vgaPos ≤ vgaSize ∧ StoresInBounds s (vgaPutc c s) := by
  have width := vgaWidth_eq
  have size := vgaSize_eq
  unfold vgaPutc
  -- first the scroll a filled row left behind, if any
  have room : ∃ t, (if vgaSize ≤ s.vgaPos then vgaScrolldown 1 s else s) = t ∧
      t.vgaPos < vgaSize ∧ StoresInBounds s t := by
    by_cases pending : vgaSize ≤ s.vgaPos
    · obtain ⟨-, -, pos, -, stores⟩ := vgaScrolldown_one (by omega) bound
      exact ⟨_, if_pos pending, by omega, stores⟩
    · exact ⟨s, if_neg pending, by omega, .refl s⟩
  obtain ⟨t, ht, below, stores⟩ := room
  simp only [ht]
  by_cases line : c = newline
  · rw [if_pos line]
    unfold vgaLinebreak
    have pos : Word32.add t.vgaPos (vgaWidth - t.vgaPos % vgaWidth) ≤ vgaSize := by
      rw [mod_vgaWidth, Word32.add_eq (by omega)]
      omega
    have broken := stores.trans (.setPos pos t)
    dsimp only
    split
    · rename_i full
      obtain ⟨-, -, pos', -, stores'⟩ := vgaScrolldown_one (by omega) full.le
      exact ⟨by omega, broken.trans stores'⟩
    · exact ⟨pos, broken⟩
  · rw [if_neg line]
    have pos : Word32.add t.vgaPos 1 ≤ vgaSize := by
      rw [Word32.add_eq (by omega)]
      omega
    exact ⟨pos, (stores.trans (.setCell below _ t)).trans (.setPos pos _)⟩

/-! ## What the screen displays -/

/-- A way to read entries of one colour: what is looked at in an entry, and which
value a symbol has there. -/
structure Reading (color : UInt8) (β : Type) where
  view : UInt16 → β
  glyph : UInt8 → β
  reads : ∀ c, view (vgaEntry c color) = glyph c

/-- The whole entries. -/
def Reading.entries (color : UInt8) : Reading color UInt16 where
  view := id
  glyph c := vgaEntry c color
  reads _ := rfl

/-- The symbols alone. -/
def Reading.symbols (color : UInt8) : Reading color UInt8 where
  view := entrySymbol
  glyph := id
  reads c := entrySymbol_vgaEntry c color

section Displays

variable {color : UInt8} {β : Type}

/-- Read so, the buffer holds these rows. -/
def Reading.Shown (R : Reading color β) (buffer : ℕ → UInt16) (rows : List (List UInt8)) : Prop :=
  Shows vgaHeightDefault vgaWidth (fun p => R.view (buffer p)) R.glyph (R.glyph space) rows

theorem Reading.Shown.setCell {R : Reading color β} {buffer : ℕ → UInt16}
    {rows : List (List UInt8)} {line : List UInt8} (shown : R.Shown buffer (rows ++ [line]))
    (c : UInt8) (room : line.length < vgaWidth) :
    R.Shown (Function.update buffer (vgaWidth * rows.length + line.length) (vgaEntry c color))
      (rows ++ [line ++ [c]]) := by
  have put := Shows.put c shown room
  rw [← R.reads] at put
  unfold Reading.Shown
  rw [show (fun p => R.view (Function.update buffer _ (vgaEntry c color) p)) =
    Function.update (fun p => R.view (buffer p)) _ (R.view (vgaEntry c color)) from
    Function.comp_update R.view buffer _ _]
  exact put

/-- The screen displays a text with the cursor in its open row. -/
structure Settled (R : Reading color β) (s : Vga) (t : Text UInt8 vgaWidth) : Prop where
  color : s.vgaColor = color
  pos : s.vgaPos = vgaWidth * (lastRows 24 t.ended).length + t.line.length
  cells : R.Shown s.vgaBuffer (lastRows 24 t.ended ++ [t.line])

/-- The screen is full of ended rows; the scroll that makes place for the open
row, which is empty, has not been made. -/
structure Pending (R : Reading color β) (s : Vga) (t : Text UInt8 vgaWidth) : Prop where
  color : s.vgaColor = color
  pos : s.vgaPos = vgaSize
  full : 25 ≤ t.ended.length
  line : t.line = []
  cells : R.Shown s.vgaBuffer (lastRows 25 t.ended)

/-- What a call of `vgaPutc c` leaves: only after a visible symbol is a scroll pending. -/
def Rests (R : Reading color β) (c : UInt8) (s : Vga) (t : Text UInt8 vgaWidth) : Prop :=
  if c ≠ newline ∧ t.line = [] ∧ 25 ≤ t.ended.length then Pending R s t else Settled R s t

variable {R : Reading color β} {s : Vga} {t u : Text UInt8 vgaWidth}

theorem Settled.below (settled : Settled R s t) : s.vgaPos < vgaSize := by
  have width := vgaWidth_eq
  have size := vgaSize_eq
  have line := t.line_fits
  have rows := length_lastRows 24 t.ended
  have pos := settled.pos
  rw [vgaWidth_mul] at pos
  omega

theorem Rests.displays {c : UInt8} (rests : Rests R c s t) : Settled R s t ∨ Pending R s t := by
  unfold Rests at rests
  split at rests
  · exact Or.inr rests
  · exact Or.inl rests

/-- A text whose last ended row is at the bottom of the screen. -/
theorem displays_of_row_ended {row : List UInt8} (sameColor : s.vgaColor = color)
    (pos : s.vgaPos = vgaWidth * ((lastRows 24 t.ended).length + 1))
    (cells : R.Shown s.vgaBuffer (lastRows 24 t.ended ++ [row]))
    (ended : u.ended = t.ended ++ [row]) (line : u.line = []) :
    if 25 ≤ u.ended.length then Pending R s u else Settled R s u := by
  have width := vgaWidth_eq
  have size := vgaSize_eq
  have count : u.ended.length = t.ended.length + 1 := by
    rw [ended, List.length_append, List.length_singleton]
  rw [length_lastRows, vgaWidth_mul] at pos
  split
  · refine ⟨sameColor, by omega, by omega, line, ?_⟩
    rw [ended, lastRows_append_singleton]
    exact cells
  · have few : t.ended.length ≤ 24 := by omega
    rw [lastRows_of_le few] at cells
    have all : lastRows 24 u.ended = t.ended ++ [row] := by
      rw [lastRows_of_le (by omega), ended]
    refine ⟨sameColor, ?_, ?_⟩
    · rw [all, line, List.length_append, List.length_singleton, List.length_nil, vgaWidth_mul]
      omega
    · rw [all, line]
      exact cells.open_row

/-- The scroll that was pending. -/
theorem Pending.scroll (pending : Pending R s t) : Settled R (vgaScrolldown 1 s) t := by
  have width := vgaWidth_eq
  have size := vgaSize_eq
  have pos := pending.pos
  have full := pending.full
  obtain ⟨moved, cleared, pos', color', -⟩ := vgaScrolldown_one (s := s) (by omega) (by omega)
  have tail : lastRows 24 t.ended = (lastRows 25 t.ended).tail := lastRows_eq_tail full
  refine ⟨color'.trans pending.color, ?_, ?_⟩
  · rw [pos', pos, length_lastRows, pending.line, List.length_nil, vgaWidth_mul]
    omega
  · rw [pending.line, tail]
    refine (Shows.scroll pending.cells (by rw [length_lastRows]; exact min_le_left _ _)
      ?_ ?_).open_row
    · intro p hp
      exact congrArg R.view (moved p hp)
    · intro p hp last
      rw [cleared p (by omega) (by omega), pending.color, R.reads]

/-- A newline on a settled screen. -/
theorem Settled.linebreak (settled : Settled R s t) : Settled R (vgaLinebreak s) t.breakLine := by
  have width := vgaWidth_eq
  have size := vgaSize_eq
  have below := settled.below
  have fits := t.line_fits
  have pos := settled.pos
  have next : Word32.add s.vgaPos (vgaWidth - s.vgaPos % vgaWidth) =
      vgaWidth * ((lastRows 24 t.ended).length + 1) := by
    rw [vgaWidth_mul] at pos
    rw [mod_vgaWidth, vgaWidth_mul, Word32.add_eq (by omega)]
    omega
  unfold vgaLinebreak
  rw [next]
  have ended := displays_of_row_ended
    (s := s.setPos (vgaWidth * ((lastRows 24 t.ended).length + 1)))
    (u := t.breakLine) settled.color (Vga.setPos_pos _ _) settled.cells rfl rfl
  split at ended
  · have full := ended.pos
    rw [if_pos full]
    exact ended.scroll
  · have room := ended.below
    rw [if_neg room.ne]
    exact ended

/-- A visible symbol on a settled screen. -/
theorem Settled.write (settled : Settled R s t) {c : UInt8} (visible : c ≠ newline) :
    Rests R c ((vgaPutentryat c s.vgaColor s.vgaPos s).setPos (Word32.add s.vgaPos 1))
      (t.write c) := by
  have width := vgaWidth_eq
  have size := vgaSize_eq
  have below := settled.below
  have fits := t.line_fits
  have next : Word32.add s.vgaPos 1 = s.vgaPos + 1 := Word32.add_eq (by omega)
  rw [next, settled.pos]
  have cells : R.Shown (vgaPutentryat c s.vgaColor s.vgaPos s).vgaBuffer
      (lastRows 24 t.ended ++ [t.line ++ [c]]) := by
    have put := settled.cells.setCell c fits
    rw [← settled.pos] at put
    unfold vgaPutentryat
    rw [settled.color]
    exact put
  rw [settled.pos] at cells
  by_cases full : t.line.length + 1 = vgaWidth
  · obtain ⟨ended, line⟩ := Text.write_full c full
    have rests := displays_of_row_ended (R := R) (u := t.write c)
      (s := (vgaPutentryat c s.vgaColor
        (vgaWidth * (lastRows 24 t.ended).length + t.line.length) s).setPos
        (vgaWidth * (lastRows 24 t.ended).length + t.line.length + 1))
      settled.color (by rw [Vga.setPos_pos, Nat.mul_succ]; omega) cells ended line
    unfold Rests
    by_cases bottom : 25 ≤ (t.write c).ended.length
    · rw [if_pos bottom] at rests
      rw [if_pos ⟨visible, line, bottom⟩]
      exact rests
    · rw [if_neg bottom] at rests
      rw [if_neg (fun h => bottom h.2.2)]
      exact rests
  · obtain ⟨ended, line⟩ := Text.write_room c full
    unfold Rests
    rw [if_neg (by rw [line]; simp)]
    refine ⟨settled.color, ?_, ?_⟩
    · rw [Vga.setPos_pos, ended, line, List.length_append, List.length_singleton, Nat.add_assoc]
    · rw [ended, line]
      exact cells

/-- **Step lemma.** One symbol takes the displayed text to the text with it put in. -/
theorem vgaPutc_rests (c : UInt8) (displays : Settled R s t ∨ Pending R s t) :
    Rests R c (vgaPutc c s) (t.put newline c) := by
  have settled : ∃ u, (if vgaSize ≤ s.vgaPos then vgaScrolldown 1 s else s) = u ∧
      Settled R u t := by
    rcases displays with settled | pending
    · exact ⟨s, if_neg (Nat.not_le.mpr settled.below), settled⟩
    · exact ⟨_, if_pos pending.pos.ge, pending.scroll⟩
  obtain ⟨u, hu, settled⟩ := settled
  unfold vgaPutc
  simp only [hu]
  by_cases line : c = newline
  · subst line
    rw [if_pos rfl, Text.put_newline]
    unfold Rests
    rw [if_neg (fun h => h.1 rfl)]
    exact settled.linebreak
  · rw [if_neg line, Text.put_visible t line]
    exact settled.write line

/-- **Run lemma.** -/
theorem vgaWrite_displays (data : List UInt8) (displays : Settled R s t ∨ Pending R s t) :
    Settled R (vgaWrite data s) (data.foldl (Text.put newline) t) ∨
      Pending R (vgaWrite data s) (data.foldl (Text.put newline) t) := by
  induction data generalizing s t with
  | nil => exact displays
  | cons c data ih => exact ih (vgaPutc_rests c displays).displays

end Displays

/-- The position stays at most `VGA_SIZE`, and no store leaves the buffer. -/
theorem vgaWrite_bounded (data : List UInt8) {s : Vga} (bound : s.vgaPos ≤ vgaSize) :
    (vgaWrite data s).vgaPos ≤ vgaSize ∧ StoresInBounds s (vgaWrite data s) := by
  induction data generalizing s with
  | nil => exact ⟨bound, .refl s⟩
  | cons c data ih =>
    obtain ⟨bound', stores⟩ := vgaPutc_bounded c bound
    obtain ⟨last, stores'⟩ := ih bound'
    exact ⟨last, stores.trans stores'⟩

/-! ## From a cleared screen -/

/-- Position 0, every cell a blank in the current colour. -/
def Cleared (s : Vga) : Prop :=
  s.vgaPos = 0 ∧ ∀ p < vgaSize, s.vgaBuffer p = vgaEntry space s.vgaColor

/-- The buffer is exactly these rows in the current colour, blanks elsewhere. -/
def OnScreen (s : Vga) (rows : List (List UInt8)) : Prop :=
  Shows vgaHeightDefault vgaWidth s.vgaBuffer (fun c => vgaEntry c s.vgaColor)
    (vgaEntry space s.vgaColor) rows

/-- The text a byte string is laid out as. -/
def textOf (data : List UInt8) : Text UInt8 vgaWidth :=
  Text.layout newline (by decide) data

theorem vgaClear_cells (s : Vga) :
    (∀ p < vgaSize, (vgaClear s).vgaBuffer p = vgaEntry space s.vgaColor) ∧
    Paints s (vgaClear s) := by
  obtain ⟨cells, paints⟩ := upto_fill (show 0 + vgaSize ≤ vgaSize by decide) space s
  simp only [Nat.zero_add] at cells paints
  refine ⟨fun p hp => (cells p).trans ?_, paints⟩
  exact if_pos ⟨Nat.zero_le p, hp⟩

theorem cleared_vgaReset (s : Vga) : Cleared (vgaReset s) := by
  obtain ⟨cells, paints⟩ := vgaClear_cells s
  unfold vgaReset vgaSetPosition
  constructor
  · rw [Vga.setPos_pos, Word32.mul_eq (by decide), Nat.mul_zero, Word32.add_eq (by decide)]
  · intro p hp
    rw [Vga.setPos_buffer, Vga.setPos_color, cells p hp, paints.color]

/-- A screen of spaces shows the empty text. -/
theorem Reading.shown_of_blank {color : UInt8} {β : Type} (R : Reading color β)
    {buffer : ℕ → UInt16} (blank : ∀ p < vgaSize, R.view (buffer p) = R.glyph space) :
    R.Shown buffer (lastRows 24 (textOf []).ended ++ [(textOf []).line]) := by
  refine Shows.open_row ?_
  intro r hr c hc
  rw [symbolAt_of_length_le (Nat.zero_le r) c]
  refine blank _ ?_
  have row : r < 25 := hr
  have col : c < 80 := hc
  rw [vgaWidth_mul]
  exact (show 80 * r + c < 2000 by omega)

theorem Cleared.settled {s : Vga} (cleared : Cleared s) :
    Settled (Reading.entries s.vgaColor) s (textOf []) :=
  ⟨rfl, cleared.1, Reading.shown_of_blank _ cleared.2⟩

/-- **Terminal semantics.** After `vgaWrite` on a cleared screen the buffer holds the last
25 rows of the text.  When `vga_pos` equals `VGA_SIZE` the open row, still empty, is not on
the screen yet: the buffer holds the last 25 ended rows, and the scroll the next `vgaPutc`
starts with brings the last 25 rows of the whole text. -/
theorem vgaWrite_shows (data : List UInt8) {s : Vga} (cleared : Cleared s) :
    (vgaWrite data s).vgaColor = s.vgaColor ∧
    ((vgaWrite data s).vgaPos < vgaSize →
      OnScreen (vgaWrite data s) (lastRows 25 (textOf data).rows)) ∧
    ((vgaWrite data s).vgaPos = vgaSize → (textOf data).line = [] ∧
      OnScreen (vgaWrite data s) (lastRows 25 (textOf data).ended) ∧
      OnScreen (vgaScrolldown 1 (vgaWrite data s)) (lastRows 25 (textOf data).rows)) ∧
    (vgaWrite data s).vgaPos ≤ vgaSize ∧ StoresInBounds s (vgaWrite data s) := by
  have bounded := vgaWrite_bounded data (s := s) (by rw [cleared.1]; exact Nat.zero_le _)
  have displays := vgaWrite_displays data (Or.inl cleared.settled)
  have onScreen : ∀ {t : Vga} {rows : List (List UInt8)}, t.vgaColor = s.vgaColor →
      (Reading.entries s.vgaColor).Shown t.vgaBuffer rows → OnScreen t rows := by
    intro t rows same shown
    unfold OnScreen
    rw [same]
    exact shown
  have whole : lastRows 25 (textOf data).rows =
      lastRows 24 (textOf data).ended ++ [(textOf data).line] :=
    lastRows_append_singleton 24 _ _
  rcases displays with settled | pending
  · refine ⟨settled.color, fun _ => ?_, fun full => ?_, bounded⟩
    · rw [whole]
      exact onScreen settled.color settled.cells
    · exact absurd full settled.below.ne
  · refine ⟨pending.color, fun below => ?_, fun _ => ?_, bounded⟩
    · exact absurd pending.pos below.ne
    · refine ⟨pending.line, onScreen pending.color pending.cells, ?_⟩
      rw [whole]
      exact onScreen pending.scroll.color pending.scroll.cells

/-- A screen as the BIOS clears it. -/
def blankVga : Vga := ⟨fun _ => vgaEntry space vgaColorDefault, 0, vgaColorDefault, []⟩

/-- Written with a row and a symbol, it shows the two rows of the text. -/
theorem vgaWrite_shows_of_blank :
    Cleared blankVga ∧ (vgaWrite [72, newline, 73] blankVga).vgaColor = vgaColorDefault ∧
      (textOf [72, newline, 73]).rows = [[72], [73]] ∧
      OnScreen (vgaWrite [72, newline, 73] blankVga)
        (lastRows 25 (textOf [72, newline, 73]).rows) ∧
      (vgaWrite [72, newline, 73] blankVga).vgaPos = 81 ∧
      StoresInBounds blankVga (vgaWrite [72, newline, 73] blankVga) := by
  have cleared : Cleared blankVga := ⟨rfl, fun _ _ => rfl⟩
  obtain ⟨color, shown, -, -, stores⟩ := vgaWrite_shows [72, newline, 73] cleared
  have pos : (vgaWrite [72, newline, 73] blankVga).vgaPos = 81 := by decide +kernel
  exact ⟨cleared, color, by decide +kernel, shown (by rw [pos]; decide), pos, stores⟩

end TrashOS
