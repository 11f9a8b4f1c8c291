import TrashOS.Vga.Kernel

/-!
# The text mode driver of the init section (`init_vga.c`)

This driver keeps a row and a column, and scrolls as soon as the bottom row ends.
Its scroll leaves blanks without a colour, so it agrees with the kernel driver on
the symbols of the screen and not on the attribute bytes.

## Main results

* `InitVga.initVgaWrite_displays` — the run lemma: the boot driver displays the
  same text as the kernel driver, with no scroll ever pending.
* `handover_symbols` — after `vga_set_position(init_vga_get_row(), init_vga_get_col())`
  the kernel driver goes on as if it had written everything.
-/

namespace TrashOS

open TextLayout

/-- `size_t INIT_VGA_HEIGHT`, never assigned. -/
abbrev initVgaHeight : ℕ := 25

/-- `size_t INIT_VGA_WIDTH`, never assigned. -/
abbrev initVgaWidth : ℕ := 80

/-- The static variables of `init_vga.c` and the memory `init_vga_buffer` points to. -/
structure InitVga where
  initVgaBuffer : ℕ → UInt16
  vgaRow : ℕ
  vgaCol : ℕ
  vgaColor : UInt8

namespace InitVga

/-- `vga_putentryat` -/
def vgaPutentryat (c color : UInt8) (x y : ℕ) (s : InitVga) : InitVga :=
  let index := Word32.add (Word32.mul y initVgaWidth) x
  { s with initVgaBuffer := Function.update s.initVgaBuffer index (vgaEntry c color) }

/-- The copying loops of `vga_scrolldown`. -/
def moveUp (lines : ℕ) (buffer : ℕ → UInt16) : ℕ → UInt16 :=
  Loop.upto (Word32.sub initVgaHeight lines) (fun y b => Loop.upto initVgaWidth (fun x b' =>
    let toIndex := y * initVgaWidth + x
    let fromIndex := toIndex + lines * initVgaWidth
    Function.update b' toIndex (b' fromIndex)) b) buffer

/-- The clearing loops of `vga_scrolldown`: the entry stored is `' '`, without a colour. -/
def clearBelow (lines : ℕ) (buffer : ℕ → UInt16) : ℕ → UInt16 :=
  let top := Word32.sub initVgaHeight lines
  Loop.upto (initVgaHeight - top) (fun y b => Loop.upto initVgaWidth (fun x b' =>
    Function.update b' ((top + y) * initVgaWidth + x) space.toUInt16) b) buffer

/-- `vga_scrolldown` -/
def vgaScrolldown (lines : ℕ) (s : InitVga) : InitVga :=
  { s with
    initVgaBuffer := clearBelow lines (moveUp lines s.initVgaBuffer)
    vgaRow := Word32.sub s.vgaRow lines }

/-- `vga_linebreak` -/
def vgaLinebreak (s : InitVga) : InitVga :=
  let broken := { s with vgaCol := 0, vgaRow := Word32.add s.vgaRow 1 }
  if broken.vgaRow = initVgaHeight then vgaScrolldown 1 broken else broken

/-- `init_vga_putc` -/
def initVgaPutc (c : UInt8) (s : InitVga) : InitVga :=
  if c = newline then vgaLinebreak s
  else
    let put := vgaPutentryat c s.vgaColor s.vgaCol s.vgaRow s
    let moved := { put with vgaCol := Word32.add put.vgaCol 1 }
    if moved.vgaCol = initVgaWidth then vgaLinebreak moved else moved

/-- `init_vga_write(data, size)` for the `size` bytes at `data`. -/
def initVgaWrite (data : List UInt8) (s : InitVga) : InitVga :=
  data.foldl (fun t c => initVgaPutc c t) s

/-- `init_vga_get_col` -/
def initVgaGetCol (s : InitVga) : ℕ := s.vgaCol

/-- `init_vga_get_row` -/
def initVgaGetRow (s : InitVga) : ℕ := s.vgaRow

/-! ## The scroll -/

theorem moveUp_one (buffer : ℕ → UInt16) (p : ℕ) :
    moveUp 1 buffer p = if p < 1920 then buffer (p + 80) else buffer p := by
  have top : Word32.sub initVgaHeight 1 = 24 := Word32.sub_eq (by decide) (by decide)
  unfold moveUp
  rw [top]
  have flat := Loop.upto_nested 24 initVgaWidth
    (fun k (b : ℕ → UInt16) => Function.update b k (b (k + 1 * initVgaWidth))) buffer
  refine (congrFun flat p).trans ?_
  refine Loop.upto_invariant (motive := fun k (b : ℕ → UInt16) => ∀ q,
    b q = if q < k then buffer (q + 80) else buffer q) 1920 (fun q => rfl) ?_ p
  intro k hk b cells q
  rw [Function.update_apply, cells q, cells (k + 1 * initVgaWidth)]
  by_cases here : q = k
  · rw [if_pos here, if_neg (by omega), if_pos (by omega), here, Nat.one_mul]
  · rw [if_neg here]
    exact if_congr (by omega) rfl rfl

theorem clearBelow_one (buffer : ℕ → UInt16) (p : ℕ) :
    clearBelow 1 buffer p =
      if 1920 ≤ p ∧ p < 2000 then space.toUInt16 else buffer p := by
  have top : Word32.sub initVgaHeight 1 = 24 := Word32.sub_eq (by decide) (by decide)
  unfold clearBelow
  simp only [top]
  change Loop.upto 1 _ buffer p = _
  rw [Loop.upto_succ, Loop.upto_zero]
  refine Loop.upto_invariant (motive := fun k (b : ℕ → UInt16) => ∀ q,
    b q = if 1920 ≤ q ∧ q < 1920 + k then space.toUInt16 else buffer q) 80
    (fun q => (if_neg (by omega)).symm) ?_ p
  intro k hk b cells q
  rw [Function.update_apply, cells q]
  by_cases here : q = 1920 + k
  · rw [if_pos (by omega), if_pos (by omega)]
  · rw [if_neg (by omega)]
    exact if_congr (by omega) rfl rfl

/-! ## What the boot screen displays -/

/-- The symbols on the screen are the text, the cursor is in its open row. -/
structure Displays (s : InitVga) (t : Text UInt8 vgaWidth) : Prop where
  row : s.vgaRow = (lastRows 24 t.ended).length
  col : s.vgaCol = t.line.length
  cells : (Reading.symbols s.vgaColor).Shown s.initVgaBuffer
    (lastRows 24 t.ended ++ [t.line])

variable {s : InitVga} {t t' : Text UInt8 vgaWidth}

/-- Ending a row, whatever ended it. -/
theorem displays_of_row_ended {row : List UInt8}
    (pos : s.vgaRow = (lastRows 24 t.ended).length)
    (cells : (Reading.symbols s.vgaColor).Shown s.initVgaBuffer
      (lastRows 24 t.ended ++ [row]))
    (ended : t'.ended = t.ended ++ [row]) (line : t'.line = []) :
    Displays (vgaLinebreak s) t' := by
  have count : t'.ended.length = t.ended.length + 1 := by
    rw [ended, List.length_append, List.length_singleton]
  have rows := length_lastRows 24 t.ended
  have next : Word32.add s.vgaRow 1 = (lastRows 24 t.ended).length + 1 := by
    rw [pos, Word32.add_eq (by omega)]
  unfold vgaLinebreak
  dsimp only
  rw [next]
  split
  · rename_i bottom
    have bottom : (lastRows 24 t.ended).length + 1 = 25 := bottom
    have tail : lastRows 24 t'.ended = (lastRows 24 t.ended ++ [row]).tail := by
      rw [lastRows_eq_tail (by omega), ended, lastRows_append_singleton]
    refine ⟨?_, line.symm ▸ rfl, ?_⟩
    · change Word32.sub ((lastRows 24 t.ended).length + 1) 1 = _
      rw [bottom, Word32.sub_eq (by decide) (by decide), length_lastRows]
      omega
    · rw [line, tail]
      refine (Shows.scroll cells ?_ ?_ ?_).open_row
      · rw [List.length_append, List.length_singleton]
        exact bottom.le
      · intro p hp
        change p < 1920 at hp
        change entrySymbol (clearBelow 1 (moveUp 1 s.initVgaBuffer) p) = entrySymbol _
        rw [clearBelow_one, if_neg (by omega), moveUp_one, if_pos hp]
      · intro p hp last
        change p < 2000 at hp
        change 1920 ≤ p at last
        change entrySymbol (clearBelow 1 (moveUp 1 s.initVgaBuffer) p) = space
        rw [clearBelow_one, if_pos ⟨last, hp⟩]
        rfl
  · rename_i room
    have room : (lastRows 24 t.ended).length + 1 ≠ 25 := room
    have few : t.ended.length ≤ 24 := by omega
    have all : lastRows 24 t'.ended = lastRows 24 t.ended ++ [row] := by
      rw [lastRows_of_le (by omega), lastRows_of_le few, ended]
    refine ⟨?_, line.symm ▸ rfl, ?_⟩
    · rw [all, List.length_append, List.length_singleton]
    · rw [all, line]
      exact Shows.open_row cells

/-- **Step lemma** of the boot driver. -/
theorem initVgaPutc_displays (c : UInt8) (displays : Displays s t) :
    Displays (initVgaPutc c s) (t.put newline c) := by
  obtain ⟨row, col, cells⟩ := displays
  unfold initVgaPutc
  by_cases line : c = newline
  · subst line
    rw [if_pos rfl, Text.put_newline]
    exact displays_of_row_ended row cells rfl rfl
  · rw [if_neg line, Text.put_visible t line]
    have fits := t.line_fits
    have rows := length_lastRows 24 t.ended
    have next : Word32.add s.vgaCol 1 = t.line.length + 1 := by
      have low : t.line.length < 80 := fits
      rw [col, Word32.add_eq (by omega)]
    have index : Word32.add (Word32.mul s.vgaRow initVgaWidth) s.vgaCol =
        vgaWidth * (lastRows 24 t.ended).length + t.line.length := by
      have low : t.line.length < 80 := fits
      have product : s.vgaRow * initVgaWidth = 80 * (lastRows 24 t.ended).length := by
        rw [row, Nat.mul_comm]
      rw [Word32.mul_eq (by omega), product, col, vgaWidth_mul, Word32.add_eq (by omega)]
    have put := cells.setCell c fits
    unfold vgaPutentryat
    dsimp only
    rw [next, index]
    split
    · rename_i full
      obtain ⟨ended, empty⟩ := Text.write_full c full
      exact displays_of_row_ended row put ended empty
    · rename_i room
      obtain ⟨ended, longer⟩ := Text.write_room c room
      refine ⟨by rw [ended]; exact row, ?_, by rw [ended, longer]; exact put⟩
      rw [longer, List.length_append, List.length_singleton]

/-- **Run lemma** of the boot driver. -/
theorem initVgaWrite_displays (data : List UInt8) (displays : Displays s t) :
    Displays (initVgaWrite data s) (data.foldl (Text.put newline) t) := by
  induction data generalizing s t with
  | nil => exact displays
  | cons c data ih => exact ih (initVgaPutc_displays c displays)

end InitVga

/-! ## The handover -/

section Handover

variable {color : UInt8} {β : Type} {R : Reading color β} {s s' : Vga} {t : Text UInt8 vgaWidth}

/-- After the same last symbol, two screens that display one text have the same cells and the
same position: whether the scroll is pending is decided by the text and the symbol. -/
theorem Rests.agree {c : UInt8} (rests : Rests R c s t) (rests' : Rests R c s' t) :
    (∀ p < vgaSize, R.view (s.vgaBuffer p) = R.view (s'.vgaBuffer p)) ∧
    s.vgaPos = s'.vgaPos := by
  have cells : ∀ p < vgaSize, p < vgaWidth * vgaHeightDefault := fun p hp => hp
  unfold Rests at rests rests'
  split at rests
  · rename_i full
    rw [if_pos full] at rests'
    exact ⟨fun p hp => Shows.congr_cells rests.cells rests'.cells p (cells p hp),
      rests.pos.trans rests'.pos.symm⟩
  · rename_i room
    rw [if_neg room] at rests'
    exact ⟨fun p hp => Shows.congr_cells rests.cells rests'.cells p (cells p hp),
      rests.pos.trans rests'.pos.symm⟩

/-- Two screens that display one text agree after any further non-empty output. -/
theorem vgaWrite_agree {data : List UInt8} (nonempty : data ≠ [])
    (displays : Settled R s t ∨ Pending R s t) (displays' : Settled R s' t ∨ Pending R s' t) :
    (∀ p < vgaSize,
      R.view ((vgaWrite data s).vgaBuffer p) = R.view ((vgaWrite data s').vgaBuffer p)) ∧
    (vgaWrite data s).vgaPos = (vgaWrite data s').vgaPos := by
  obtain rfl | ⟨before, last, rfl⟩ := List.eq_nil_or_concat data
  · exact absurd rfl nonempty
  · rw [List.concat_eq_append, vgaWrite_append, vgaWrite_append]
    have rests := vgaPutc_rests last (vgaWrite_displays before displays)
    have rests' := vgaPutc_rests last (vgaWrite_displays before displays')
    exact rests.agree rests'

/-- The kernel driver takes over what the boot driver displays. -/
theorem InitVga.Displays.settled {b : InitVga} (displays : b.Displays t) (color : UInt8) (pos : ℕ)
    (stores : List VgaStore) :
    Settled (Reading.symbols color)
      (vgaSetPosition b.initVgaGetRow b.initVgaGetCol
        ⟨b.initVgaBuffer, pos, color, stores⟩) t := by
  have rows := length_lastRows 24 t.ended
  have low : t.line.length < 80 := t.line_fits
  refine ⟨rfl, ?_, displays.cells⟩
  unfold vgaSetPosition InitVga.initVgaGetRow InitVga.initVgaGetCol
  rw [Vga.setPos_pos, displays.row, displays.col, Word32.mul_eq (by rw [vgaWidth_mul]; omega),
    Word32.add_eq (by rw [vgaWidth_mul]; omega)]

/-- **The drivers are interchangeable at the handover.** On any screen of spaces, writing `first`
with the boot driver, handing over, and writing the non-empty `second` with the kernel driver
leaves the symbols and the position that the kernel driver alone leaves.  Colours may differ,
since the boot driver scrolls without them, so the statement is about the symbols.  `nonempty` is
needed: with a full screen the kernel driver has a scroll pending, which only its next character
makes. -/
theorem handover_symbols (screen : ℕ → UInt16)
    (blank : ∀ p < vgaSize, entrySymbol (screen p) = space) (first second : List UInt8)
    (nonempty : second ≠ []) (initColor color : UInt8) (pos : ℕ) :
    let booted := InitVga.initVgaWrite first ⟨screen, 0, 0, initColor⟩
    let handed := vgaWrite second
      (vgaSetPosition booted.initVgaGetRow booted.initVgaGetCol
        ⟨booted.initVgaBuffer, pos, color, []⟩)
    let alone := vgaWrite second (vgaWrite first ⟨screen, 0, color, []⟩)
    (∀ p < vgaSize, entrySymbol (handed.vgaBuffer p) = entrySymbol (alone.vgaBuffer p)) ∧
      handed.vgaPos = alone.vgaPos := by
  intro booted handed alone
  have shown : (Reading.symbols color).Shown screen
      (lastRows 24 (textOf []).ended ++ [(textOf []).line]) :=
    Reading.shown_of_blank (Reading.symbols color) blank
  have boot : InitVga.Displays ⟨screen, 0, 0, initColor⟩ (textOf []) := ⟨rfl, rfl, shown⟩
  have kernel : Settled (Reading.symbols color) ⟨screen, 0, color, []⟩ (textOf []) :=
    ⟨rfl, rfl, shown⟩
  have displays := (InitVga.initVgaWrite_displays first boot).settled color pos []
  exact vgaWrite_agree nonempty (Or.inl displays)
    (vgaWrite_displays first (Or.inl kernel))

/-- The cleared screen the boot code starts from; the boot driver fills a row, the kernel driver
goes on below it. -/
theorem handover_symbols_of_cleared :
    let booted := InitVga.initVgaWrite [72, newline]
      ⟨fun _ => vgaEntry space vgaColorDefault, 0, 0, vgaColorDefault⟩
    let handed := vgaWrite [73]
      (vgaSetPosition booted.initVgaGetRow booted.initVgaGetCol
        ⟨booted.initVgaBuffer, 0, vgaColorDefault, []⟩)
    let alone := vgaWrite [73] (vgaWrite [72, newline] blankVga)
    (∀ p < vgaSize, entrySymbol (handed.vgaBuffer p) = entrySymbol (alone.vgaBuffer p)) ∧
      handed.vgaPos = alone.vgaPos :=
  handover_symbols (fun _ => vgaEntry space vgaColorDefault)
    (fun _ _ => entrySymbol_vgaEntry _ _) [72, newline] [73] (by decide)
    vgaColorDefault vgaColorDefault 0

end Handover

end TrashOS
