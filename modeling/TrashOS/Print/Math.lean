import Mathlib.Data.Nat.Log
import Mathlib.Data.Nat.ModEq
import Mathlib.Data.Int.GCD
import Mathlib.Tactic.Ring
import Mathlib.Tactic.Positivity

/-!
# Integer logarithms and division (`math.h`)

`div64` looks for the first multiple of the divisor above the dividend, computed
in 64 bits.  A product that wraps around is taken for a small one, so for large
dividends the quotient is wrong and for the largest the loop never ends.  The
counter is a 64-bit word as well: a loop that has not ended after `2 ^ 64` turns
never does, and the model says `none`.
-/

namespace TrashOS

/-- `EXP10[j]`, the powers of ten that fit into 64 bits (`j < 20`). -/
def EXP10 (j : ℕ) : ℕ := 10 ^ j

/-- The comparisons of `ilog10u` from `EXP10[j]` downwards. -/
def ilog10From : ℕ → ℕ → ℕ
  | 0, _ => 0
  | j + 1, v => if EXP10 (j + 1) ≤ v then j + 1 else ilog10From j v

/-- `ilog10u` -/
def ilog10u (v : ℕ) : ℕ := ilog10From 19 v

/-- `ilog2u`: how often `v >>= 1` is not zero. -/
def ilog2u (v : ℕ) : ℕ := if v / 2 = 0 then 0 else ilog2u (v / 2) + 1
termination_by v
decreasing_by omega

/-- `for (; b * res <= a; res++);` with at most `turns` turns, all in 64 bits. -/
def div64Loop (a b : ℕ) : ℕ → ℕ → Option ℕ
  | 0, _ => none
  | turns + 1, res =>
    if b * res % 2 ^ 64 ≤ a then div64Loop a b turns ((res + 1) % 2 ^ 64) else some res

/-- `div64`, `none` if its loop never ends. -/
def div64 (a b : ℕ) : Option ℕ :=
  (div64Loop a b (2 ^ 64) 0).map fun res => (res + (2 ^ 64 - 1)) % 2 ^ 64

/-! ## Logarithms -/

theorem ilog10From_le (k v : ℕ) : ilog10From k v ≤ k := by
  induction k with
  | zero => exact le_refl 0
  | succ k ih =>
    unfold ilog10From
    split
    · exact le_refl _
    · exact ih.trans (Nat.le_succ k)

theorem lt_pow_ilog10From {k v : ℕ} (small : v < 10 ^ (k + 1)) :
    v < 10 ^ (ilog10From k v + 1) := by
  induction k with
  | zero => exact small
  | succ k ih =>
    unfold ilog10From
    split
    · exact small
    · rename_i below
      exact ih (Nat.not_le.mp below)

theorem ilog10From_lt {k j v : ℕ} (small : v < 10 ^ (j + 1)) : ilog10From k v ≤ j := by
  induction k with
  | zero => exact Nat.zero_le j
  | succ k ih =>
    unfold ilog10From EXP10
    split
    · rename_i reached
      exact Nat.lt_succ_iff.mp
        ((Nat.pow_lt_pow_iff_right (by norm_num)).mp (reached.trans_lt small))
    · exact ih

theorem ilog10u_le (v : ℕ) : ilog10u v ≤ 19 := ilog10From_le 19 v

theorem ilog10u_of_large {v : ℕ} (large : 10 ^ 19 ≤ v) : ilog10u v = 19 := if_pos large

/-! ## The division loop -/

/-- The loop ends at the first counter value whose product exceeds the dividend. -/
theorem div64Loop_of_first {a b first : ℕ} (turns res : ℕ) (word : first < 2 ^ 64)
    (from_ : res ≤ first) (enough : first - res < turns)
    (below : ∀ r, res ≤ r → r < first → b * r % 2 ^ 64 ≤ a) (above : a < b * first % 2 ^ 64) :
    div64Loop a b turns res = some first := by
  induction turns generalizing res with
  | zero => omega
  | succ turns ih =>
    unfold div64Loop
    by_cases here : res = first
    · subst here
      rw [if_neg (Nat.not_le.mpr above)]
    · rw [if_pos (below res le_rfl (by omega)), Nat.mod_eq_of_lt (show res + 1 < 2 ^ 64 by omega)]
      exact ih _ (by omega) (by omega) fun r lo hi => below r (by omega) hi

/-- A loop whose products never exceed the dividend does not end. -/
theorem div64Loop_of_none {a b : ℕ} (turns res : ℕ) (never : ∀ r, b * r % 2 ^ 64 ≤ a) :
    div64Loop a b turns res = none := by
  induction turns generalizing res with
  | zero => rfl
  | succ turns ih =>
    unfold div64Loop
    rw [if_pos (never res)]
    exact ih _

/-- What a quotient of `div64` is: the products up to it do not exceed the dividend, the
next does. -/
structure IsDiv64 (a b q : ℕ) : Prop where
  word : q + 1 < 2 ^ 64
  below : ∀ r ≤ q, b * r % 2 ^ 64 ≤ a
  above : a < b * (q + 1) % 2 ^ 64

theorem IsDiv64.div64_eq {a b q : ℕ} (quotient : IsDiv64 a b q) : div64 a b = some q := by
  have found := div64Loop_of_first (2 ^ 64) 0 quotient.word (Nat.zero_le _)
    (by have := quotient.word; omega) (fun r _ hi => quotient.below r (Nat.lt_succ_iff.mp hi))
    quotient.above
  unfold div64
  rw [found, Option.map_some, Option.some_inj]
  have word := quotient.word
  omega

/-- `div64` returns as soon as some product exceeds the dividend, whichever it is. -/
theorem exists_isDiv64 {a b r : ℕ} (exceeds : a < b * r % 2 ^ 64) : ∃ q, IsDiv64 a b q := by
  classical
  have some_ : ∃ r, a < b * r % 2 ^ 64 := ⟨r, exceeds⟩
  obtain ⟨first, rfl⟩ : ∃ first, first = Nat.find some_ := ⟨_, rfl⟩
  have above := Nat.find_spec some_
  have least : ∀ r < Nat.find some_, b * r % 2 ^ 64 ≤ a :=
    fun r lt => Nat.not_lt.mp (Nat.find_min some_ lt)
  have pos : Nat.find some_ ≠ 0 := by
    intro zero
    rw [zero, Nat.mul_zero, Nat.zero_mod] at above
    exact Nat.not_lt_zero a above
  have word : Nat.find some_ < 2 ^ 64 := by
    refine lt_of_le_of_lt (Nat.find_min' some_ ?_) (Nat.mod_lt r (by norm_num))
    rw [Nat.mul_mod_mod]
    exact exceeds
  have succ : Nat.find some_ - 1 + 1 = Nat.find some_ := by omega
  exact ⟨Nat.find some_ - 1, by omega, fun r hr => least r (by omega), by rw [succ]; exact above⟩

theorem div64_eq_none {a b : ℕ} (never : ∀ r, b * r % 2 ^ 64 ≤ a) : div64 a b = none := by
  unfold div64
  rw [div64Loop_of_none _ _ never]
  rfl

/-- **When `div64` returns.** -/
theorem div64_isSome_iff (a b : ℕ) : (∃ q, div64 a b = some q) ↔ ∃ r, a < b * r % 2 ^ 64 := by
  constructor
  · rintro ⟨q, returned⟩
    by_contra never
    have none_ := div64_eq_none fun r => Nat.not_lt.mp fun exceeds => never ⟨r, exceeds⟩
    rw [none_] at returned
    cases returned
  · rintro ⟨r, exceeds⟩
    obtain ⟨q, quotient⟩ := exists_isDiv64 exceeds
    exact ⟨q, quotient.div64_eq⟩

theorem isDiv64_of_eq {a b q : ℕ} (returned : div64 a b = some q) : IsDiv64 a b q := by
  obtain ⟨r, exceeds⟩ := (div64_isSome_iff a b).mp ⟨q, returned⟩
  obtain ⟨q', quotient⟩ := exists_isDiv64 exceeds
  have same : some q' = some q := quotient.div64_eq.symm.trans returned
  rw [← Option.some_inj.mp same]
  exact quotient

/-- As long as the products do not wrap around, `div64` divides. -/
theorem isDiv64_of_lt {a b : ℕ} (pos : 0 < b) (fits : b * (a / b + 1) < 2 ^ 64) :
    IsDiv64 a b (a / b) where
  word := lt_of_le_of_lt (Nat.le_mul_of_pos_left _ pos) fits
  below := by
    intro r hr
    exact (Nat.mod_le _ _).trans ((Nat.mul_le_mul_left b hr).trans (Nat.mul_div_le a b))
  above := by
    rw [Nat.mod_eq_of_lt fits]
    exact Nat.lt_mul_div_succ a pos

/-! ## Powers of ten modulo `2 ^ 64` -/

theorem two_pow_dvd_mod (j r : ℕ) (hj : j ≤ 64) : 2 ^ j ∣ 10 ^ j * r % 2 ^ 64 := by
  have divides : 2 ^ j ∣ 10 ^ j * r := by
    rw [show (10 : ℕ) = 2 * 5 by norm_num, Nat.mul_pow, Nat.mul_assoc]
    exact Nat.dvd_mul_right _ _
  exact (Nat.dvd_mod_iff (pow_dvd_pow 2 hj)).mpr divides

/-- The products of `EXP10[j]` never exceed `2 ^ 64 - 2 ^ j`. -/
theorem mul_pow_mod_le (j r : ℕ) (hj : j ≤ 64) : 10 ^ j * r % 2 ^ 64 ≤ 2 ^ 64 - 2 ^ j := by
  obtain ⟨c, hc⟩ := two_pow_dvd_mod j r hj
  have below : 10 ^ j * r % 2 ^ 64 < 2 ^ 64 := Nat.mod_lt _ (by norm_num)
  have whole : 2 ^ 64 = 2 ^ j * 2 ^ (64 - j) := by rw [← pow_add, Nat.add_sub_cancel' hj]
  rw [hc] at below ⊢
  have lt : c < 2 ^ (64 - j) := by
    rw [whole] at below
    exact Nat.lt_of_mul_lt_mul_left below
  calc 2 ^ j * c ≤ 2 ^ j * (2 ^ (64 - j) - 1) := Nat.mul_le_mul_left _ (by omega)
    _ = 2 ^ 64 - 2 ^ j := by rw [Nat.mul_sub, ← whole, Nat.mul_one]

/-- And some product reaches it: five is invertible. -/
theorem exists_mul_pow_mod_eq (j : ℕ) (hj : j ≤ 64) :
    ∃ r, 10 ^ j * r % 2 ^ 64 = 2 ^ 64 - 2 ^ j := by
  have coprime : Nat.Coprime (5 ^ j) (2 ^ 64) := Nat.Coprime.pow j 64 (by decide)
  obtain ⟨x, -, hx⟩ := Nat.exists_mul_mod_eq_one_of_coprime coprime (by norm_num)
  have positive : 0 < 2 ^ j := Nat.two_pow_pos j
  have bound : 2 ^ j ≤ 2 ^ 64 := Nat.pow_le_pow_right (by norm_num) hj
  refine ⟨x * (2 ^ 64 - 1), ?_⟩
  have split : 10 ^ j * (x * (2 ^ 64 - 1)) = 5 ^ j * x * (2 ^ j * (2 ^ 64 - 1)) := by
    rw [show (10 : ℕ) = 5 * 2 by norm_num, Nat.mul_pow]
    ring
  have minus : 2 ^ j * (2 ^ 64 - 1) = (2 ^ 64 - 2 ^ j) + 2 ^ 64 * (2 ^ j - 1) := by
    rw [Nat.mul_sub, Nat.mul_sub, Nat.mul_one, Nat.mul_one, Nat.mul_comm (2 ^ j) (2 ^ 64)]
    have le : 2 ^ 64 ≤ 2 ^ 64 * 2 ^ j := Nat.le_mul_of_pos_right _ positive
    omega
  rw [split, Nat.mul_mod, hx, Nat.one_mul, Nat.mod_mod, minus, Nat.add_mul_mod_self_left,
    Nat.mod_eq_of_lt (by omega)]

end TrashOS
