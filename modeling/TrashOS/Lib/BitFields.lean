import Mathlib.Data.Nat.Bitwise
import Mathlib.Algebra.BigOperators.Group.List.Basic
import Mathlib.Tactic.Ring

/-!
# Bit fields

A layout is the list of the widths of its fields, from bit 0 up.  `pack` puts values into
the fields of a layout, each cut to the width of its field, and `unpack` takes a word
apart, so that a word is made of its fields (`pack_unpack`).  `field` reads one field by
its position, whatever layout the word was made with, so that a word packed with one
layout can be read with another (`field_pack_head`, `field_pack_tail`).

Code that assembles words with masks comes down to this form by `and_mask` and
`or_eq_add`.
-/

namespace BitFields

variable {layout values : List ℕ} {word x lo width value k : ℕ}

/-- The `width` bits from bit `lo` on. -/
def field (lo width word : ℕ) : ℕ := word / 2 ^ lo % 2 ^ width

/-- The values in their fields. -/
def pack : List ℕ → List ℕ → ℕ
  | width :: layout, value :: values => value % 2 ^ width + 2 ^ width * pack layout values
  | _, _ => 0

/-- The fields of a word. -/
def unpack : List ℕ → ℕ → List ℕ
  | [], _ => []
  | width :: layout, word => word % 2 ^ width :: unpack layout (word / 2 ^ width)

theorem field_lt (lo width word : ℕ) : field lo width word < 2 ^ width :=
  Nat.mod_lt _ (Nat.two_pow_pos width)

/-! ## Round trips -/

theorem pack_lt (layout values : List ℕ) : pack layout values < 2 ^ layout.sum := by
  induction layout generalizing values with
  | nil => exact Nat.two_pow_pos 0
  | cons width layout ih =>
      cases values with
      | nil => exact Nat.two_pow_pos _
      | cons value values =>
          have head := Nat.mod_lt value (Nat.two_pow_pos width)
          have tail : pack layout values + 1 ≤ 2 ^ layout.sum := ih values
          calc
            value % 2 ^ width + 2 ^ width * pack layout values
                < 2 ^ width * (pack layout values + 1) := by
                  rw [Nat.mul_succ]
                  omega
            _ ≤ 2 ^ width * 2 ^ layout.sum := Nat.mul_le_mul_left _ tail
            _ = 2 ^ (width :: layout).sum := by rw [List.sum_cons, pow_add]

/-- A word is made of its fields. -/
theorem pack_unpack (layout : List ℕ) (word : ℕ) :
    pack layout (unpack layout word) = word % 2 ^ layout.sum := by
  induction layout generalizing word with
  | nil =>
      rw [List.sum_nil, pow_zero, Nat.mod_one]
      rfl
  | cons width layout ih =>
      rw [unpack, pack, ih, Nat.mod_mod, List.sum_cons, pow_add, Nat.mod_mul]

/-! ## Single fields -/

theorem field_pack_head :
    field 0 width (pack (width :: layout) (value :: values)) = value % 2 ^ width := by
  rw [field, pow_zero, Nat.div_one, pack, Nat.add_mul_mod_self_left, Nat.mod_mod]

/-- A position behind the first field. -/
theorem field_pack_tail {first : ℕ} (past : first ≤ lo) :
    field lo width (pack (first :: layout) (value :: values)) =
      field (lo - first) width (pack layout values) := by
  have pos := Nat.two_pow_pos first
  have split : 2 ^ lo = 2 ^ first * 2 ^ (lo - first) := by
    rw [← pow_add, Nat.add_sub_cancel' past]
  have head := Nat.mod_lt value pos
  rw [field, field, split, ← Nat.div_div_eq_div_mul, pack, Nat.add_mul_div_left _ _ pos,
    Nat.div_eq_of_lt head, Nat.zero_add]

/-- Bits inside the first field. -/
theorem field_pack_inside {first : ℕ} (inside : lo + width ≤ first) :
    field lo width (pack (first :: layout) (value :: values)) = field lo width value := by
  have split : 2 ^ first = 2 ^ lo * 2 ^ width * 2 ^ (first - (lo + width)) := by
    rw [← pow_add, ← pow_add, Nat.add_sub_cancel' inside]
  rw [field, field, ← Nat.mod_mul_right_div_self, ← Nat.mod_mul_right_div_self, pack, split,
    Nat.mul_assoc _ _ (pack _ _), Nat.add_mul_mod_self_left, Nat.mod_mul_right_mod]

/-! ## Masks -/

/-- A mask over one field. -/
theorem and_mask (x lo width : ℕ) :
    x &&& (2 ^ width - 1) * 2 ^ lo = field lo width x * 2 ^ lo := by
  apply Nat.eq_of_testBit_eq
  intro i
  rw [Nat.testBit_and, Nat.testBit_mul_two_pow, Nat.testBit_mul_two_pow,
    Nat.testBit_two_pow_sub_one, field, Nat.testBit_mod_two_pow, Nat.testBit_div_two_pow]
  by_cases above : lo ≤ i
  · rw [Nat.sub_add_cancel above]
    simp only [above, decide_true, Bool.true_and]
    exact Bool.and_comm _ _
  · simp [above]

/-- Words without a common bit. -/
theorem or_eq_add (high : ℕ) (low : x < 2 ^ k) : high * 2 ^ k ||| x = high * 2 ^ k + x := by
  rw [Nat.mul_comm, Nat.two_pow_add_eq_or_of_lt low]

end BitFields
