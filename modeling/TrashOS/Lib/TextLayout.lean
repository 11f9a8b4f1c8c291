import Mathlib.Logic.Function.Basic
import Mathlib.Tactic.Ring

/-!
# Text laid out on a screen of fixed width

A `Text α width` is everything written so far, broken into rows: the rows that
have ended, oldest first, and the open row the next symbol goes to.  A row ends
when it holds `width` symbols or when the newline symbol arrives.  The structure
carries the bounds on its rows, so that a text that does not fit cannot be built.

A screen of `height` rows shows the last rows of a text.  `Shows` compares a
linear cell memory with a list of rows; the three lemmas `Shows.put`,
`Shows.open_row` and `Shows.scroll` say how it changes when one symbol is
written, when an empty row is opened, and when all cells move up one row.
-/

namespace TextLayout

variable {α β : Type*} {width height : ℕ}

/-- A history of symbols laid out in rows of at most `width` symbols. -/
structure Text (α : Type*) (width : ℕ) where
  /-- The rows that have ended, oldest first. -/
  ended : List (List α)
  /-- The open row. -/
  line : List α
  line_fits : line.length < width
  ended_fits : ∀ row ∈ ended, row.length ≤ width

namespace Text

/-- Nothing written yet: one open empty row. -/
def blank (pos : 0 < width) : Text α width where
  ended := []
  line := []
  line_fits := pos
  ended_fits := by simp

/-- All rows, the open one last. -/
def rows (t : Text α width) : List (List α) := t.ended ++ [t.line]

/-- End the open row as it is. -/
def breakLine (t : Text α width) : Text α width where
  ended := t.ended ++ [t.line]
  line := []
  line_fits := Nat.zero_lt_of_lt t.line_fits
  ended_fits := by
    intro row mem
    rcases List.mem_append.mp mem with old | new
    · exact t.ended_fits row old
    · rw [List.mem_singleton.mp new]
      exact t.line_fits.le

/-- Write one visible symbol; the row it fills ends. -/
def write (t : Text α width) (c : α) : Text α width :=
  if full : t.line.length + 1 = width then
    { ended := t.ended ++ [t.line ++ [c]]
      line := []
      line_fits := Nat.zero_lt_of_lt t.line_fits
      ended_fits := by
        intro row mem
        rcases List.mem_append.mp mem with old | new
        · exact t.ended_fits row old
        · rw [List.mem_singleton.mp new, List.length_append, List.length_singleton]
          exact full.le }
  else
    { ended := t.ended
      line := t.line ++ [c]
      line_fits := by
        have := t.line_fits
        rw [List.length_append, List.length_singleton]
        omega
      ended_fits := t.ended_fits }

/-- Take in one symbol. -/
def put [DecidableEq α] (newline : α) (t : Text α width) (c : α) : Text α width :=
  if c = newline then t.breakLine else t.write c

/-- The layout of a whole history. -/
def layout [DecidableEq α] (newline : α) (pos : 0 < width) (history : List α) : Text α width :=
  history.foldl (put newline) (blank pos)

@[simp] theorem blank_ended (pos : 0 < width) : (blank pos : Text α width).ended = [] := rfl

@[simp] theorem blank_line (pos : 0 < width) : (blank pos : Text α width).line = [] := rfl

@[simp] theorem breakLine_ended (t : Text α width) :
    t.breakLine.ended = t.ended ++ [t.line] := rfl

@[simp] theorem breakLine_line (t : Text α width) : t.breakLine.line = [] := rfl

theorem write_full {t : Text α width} (c : α) (full : t.line.length + 1 = width) :
    (t.write c).ended = t.ended ++ [t.line ++ [c]] ∧ (t.write c).line = [] := by
  unfold write
  rw [dif_pos full]
  exact ⟨rfl, rfl⟩

theorem write_room {t : Text α width} (c : α) (room : t.line.length + 1 ≠ width) :
    (t.write c).ended = t.ended ∧ (t.write c).line = t.line ++ [c] := by
  unfold write
  rw [dif_neg room]
  exact ⟨rfl, rfl⟩

theorem put_newline [DecidableEq α] (newline : α) (t : Text α width) :
    t.put newline newline = t.breakLine := if_pos rfl

theorem put_visible [DecidableEq α] {newline c : α} (t : Text α width) (visible : c ≠ newline) :
    t.put newline c = t.write c := if_neg visible

end Text

/-! ## The last rows -/

/-- The last `n` rows. -/
def lastRows (n : ℕ) (rows : List (List α)) : List (List α) :=
  rows.drop (rows.length - n)

@[simp] theorem length_lastRows (n : ℕ) (rows : List (List α)) :
    (lastRows n rows).length = min n rows.length := by
  unfold lastRows
  rw [List.length_drop]
  omega

theorem lastRows_of_le {n : ℕ} {rows : List (List α)} (le : rows.length ≤ n) :
    lastRows n rows = rows := by
  unfold lastRows
  rw [Nat.sub_eq_zero_of_le le, List.drop_zero]

theorem lastRows_append_singleton (n : ℕ) (rows : List (List α)) (row : List α) :
    lastRows (n + 1) (rows ++ [row]) = lastRows n rows ++ [row] := by
  unfold lastRows
  have shift : (rows ++ [row]).length - (n + 1) = rows.length - n := by
    rw [List.length_append, List.length_singleton]
    omega
  rw [shift, List.drop_append_of_le_length (Nat.sub_le _ _)]

/-- One row fewer: the oldest of the rows shown goes. -/
theorem lastRows_eq_tail {n : ℕ} {rows : List (List α)} (full : n + 1 ≤ rows.length) :
    lastRows n rows = (lastRows (n + 1) rows).tail := by
  unfold lastRows
  rw [List.tail_drop]
  congr 1
  omega

/-! ## What a screen shows -/

/-- The symbol of a row list at a row and column, if one was written there. -/
def symbolAt (rows : List (List α)) (r c : ℕ) : Option α := rows[r]?.bind (·[c]?)

/-- The `height × width` cells of `screen` are the rows, with `empty` elsewhere. -/
def Shows (height width : ℕ) (screen : ℕ → β) (glyph : α → β) (empty : β)
    (rows : List (List α)) : Prop :=
  ∀ r < height, ∀ c < width,
    screen (width * r + c) = ((symbolAt rows r c).map glyph).getD empty

theorem symbolAt_open_row (rows : List (List α)) (r c : ℕ) :
    symbolAt (rows ++ [[]]) r c = symbolAt rows r c := by
  unfold symbolAt
  rcases lt_trichotomy r rows.length with lt | rfl | gt
  · rw [List.getElem?_append_left lt]
  · simp
  · rw [List.getElem?_eq_none (by simp; omega), List.getElem?_eq_none (by omega)]

theorem symbolAt_tail (rows : List (List α)) (r c : ℕ) :
    symbolAt rows.tail r c = symbolAt rows (r + 1) c := by
  unfold symbolAt
  rw [List.getElem?_tail]

theorem symbolAt_of_length_le {rows : List (List α)} {r : ℕ} (le : rows.length ≤ r) (c : ℕ) :
    symbolAt rows r c = none := by
  unfold symbolAt
  rw [List.getElem?_eq_none le]
  rfl

theorem symbolAt_put (rows : List (List α)) (line : List α) (a : α) (r c : ℕ) :
    symbolAt (rows ++ [line ++ [a]]) r c =
      if r = rows.length ∧ c = line.length then some a else symbolAt (rows ++ [line]) r c := by
  unfold symbolAt
  rcases lt_trichotomy r rows.length with lt | rfl | gt
  · rw [List.getElem?_append_left lt, List.getElem?_append_left lt, if_neg (by omega)]
  · simp only [List.getElem?_concat_length, Option.bind_some, true_and]
    rcases lt_trichotomy c line.length with lt | rfl | gt
    · rw [List.getElem?_append_left lt, if_neg lt.ne]
    · rw [List.getElem?_concat_length, if_pos rfl]
    · rw [List.getElem?_eq_none (by simp; omega), List.getElem?_eq_none (by omega),
        if_neg gt.ne']
  · rw [List.getElem?_eq_none (by simp; omega), List.getElem?_eq_none (by simp; omega),
      if_neg (by omega)]

/-- Two cells of a screen are the same only if row and column are. -/
theorem cell_inj {r c r' c' : ℕ} (hc : c < width) (hc' : c' < width) :
    width * r + c = width * r' + c' ↔ r = r' ∧ c = c' := by
  constructor
  · intro same
    have rows : r = r' := by
      have := congrArg (· / width) same
      simpa [Nat.mul_add_div (Nat.zero_lt_of_lt hc), Nat.div_eq_of_lt hc,
        Nat.div_eq_of_lt hc'] using this
    subst rows
    exact ⟨rfl, Nat.add_left_cancel same⟩
  · rintro ⟨rfl, rfl⟩
    rfl

namespace Shows

variable {screen screen' : ℕ → β} {glyph : α → β} {empty : β} {rows : List (List α)}

/-- Opening an empty row changes nothing on the screen. -/
theorem open_row (shown : Shows height width screen glyph empty rows) :
    Shows height width screen glyph empty (rows ++ [[]]) := by
  intro r hr c hc
  rw [symbolAt_open_row]
  exact shown r hr c hc

/-- Writing one symbol at the cursor. -/
theorem put {line : List α} (a : α)
    (shown : Shows height width screen glyph empty (rows ++ [line]))
    (room : line.length < width) :
    Shows height width
      (Function.update screen (width * rows.length + line.length) (glyph a))
      glyph empty (rows ++ [line ++ [a]]) := by
  intro r hr c hc
  rw [symbolAt_put, Function.update_apply]
  by_cases here : r = rows.length ∧ c = line.length
  · rw [if_pos here, if_pos ((cell_inj hc room).mpr here)]
    rfl
  · rw [if_neg here, if_neg (fun same => here ((cell_inj hc room).mp same))]
    exact shown r hr c hc

/-- Every cell takes what was one row below it, the last row becomes empty. -/
theorem scroll (shown : Shows height width screen glyph empty rows)
    (fits : rows.length ≤ height)
    (moved : ∀ p < width * (height - 1), screen' p = screen (p + width))
    (cleared : ∀ p < width * height, width * (height - 1) ≤ p → screen' p = empty) :
    Shows height width screen' glyph empty rows.tail := by
  intro r hr c hc
  rw [symbolAt_tail]
  by_cases last : r + 1 = height
  · have below : height - 1 = r := by omega
    rw [symbolAt_of_length_le (by omega) c]
    refine cleared _ ?_ (by rw [below]; exact Nat.le_add_right _ _)
    calc width * r + c < width * r + width := by omega
      _ = width * height := by rw [← last, Nat.mul_succ]
  · have inside : r + 1 < height := by omega
    have bound : width * r + c < width * (height - 1) :=
      calc width * r + c < width * (r + 1) := by rw [Nat.mul_succ]; omega
        _ ≤ width * (height - 1) := Nat.mul_le_mul_left _ (by omega)
    rw [moved _ bound, ← shown (r + 1) inside c hc]
    congr 1
    rw [Nat.mul_succ]
    omega

/-- The screen shows one row list only through its cells. -/
theorem congr_cells (shown : Shows height width screen glyph empty rows)
    (shown' : Shows height width screen' glyph empty rows) :
    ∀ p < width * height, screen p = screen' p := by
  intro p hp
  have wide : 0 < width := Nat.pos_of_mul_pos_right (Nat.zero_lt_of_lt hp)
  have hr : p / width < height := Nat.div_lt_of_lt_mul hp
  have hc : p % width < width := Nat.mod_lt _ wide
  rw [← Nat.div_add_mod p width, shown _ hr _ hc, shown' _ hr _ hc]

end Shows

end TextLayout
