import Mathlib.Data.Nat.Bitwise
import Mathlib.Tactic.Ring

/-!
# 32-bit unsigned words over the natural numbers

A word is a natural number below `2 ^ 32`.  The operations below are the ones a
C compiler gives `uint32_t`: addition and subtraction wrap, `not` complements
all 32 bits.  Conjunction and disjunction are `&&&` and `|||` on `ℕ`.

The lemmas come in two kinds.  `add_eq` and `sub_eq` drop the wrap-around once
the exact result is known to fit, which is how every proof leaves modular
arithmetic behind.  `and_not_low` and its neighbours turn the bit masks of
alignment code into division and remainder, which `omega` understands.
-/

namespace Word32

/-- Wrapping addition. -/
def add (a b : ℕ) : ℕ := (a + b) % 2 ^ 32

/-- Wrapping subtraction. -/
def sub (a b : ℕ) : ℕ := (a + (2 ^ 32 - b % 2 ^ 32)) % 2 ^ 32

/-- Wrapping multiplication. -/
def mul (a b : ℕ) : ℕ := a * b % 2 ^ 32

/-- Bitwise complement. -/
def not (a : ℕ) : ℕ := 2 ^ 32 - 1 - a

theorem add_lt (a b : ℕ) : add a b < 2 ^ 32 := Nat.mod_lt _ (by norm_num)

theorem add_eq {a b : ℕ} (fits : a + b < 2 ^ 32) : add a b = a + b :=
  Nat.mod_eq_of_lt fits

theorem sub_eq {a b : ℕ} (le : b ≤ a) (fits : a < 2 ^ 32) : sub a b = a - b := by
  unfold sub
  omega

/-- Subtraction that crosses zero comes out at the top of the address space. -/
theorem sub_eq_of_lt {a b : ℕ} (lt : a < b) (fits : b < 2 ^ 32) :
    sub a b = 2 ^ 32 + a - b := by
  unfold sub
  omega

theorem mul_eq {a b : ℕ} (fits : a * b < 2 ^ 32) : mul a b = a * b :=
  Nat.mod_eq_of_lt fits

/-! ## Offsets around a fixed address -/

theorem sub_sub (a j k : ℕ) : sub (sub a j) k = sub a (j + k) := by
  unfold sub
  omega

theorem add_sub {a j k : ℕ} (le : k ≤ j) : add (sub a j) k = sub a (j - k) := by
  unfold add sub
  omega

theorem sub_add_self {a k : ℕ} (word : a < 2 ^ 32) : sub (add a k) k = a := by
  unfold add sub
  omega

theorem sub_add_add (a j k : ℕ) : sub (add a k) (k + j) = sub a j := by
  unfold add sub
  omega

theorem sub_sub_sub (a j k : ℕ) : sub (sub a j) (sub a k) = sub k j := by
  unfold sub
  omega

theorem sub_left_inj {a j k : ℕ} (hj : j < 2 ^ 32) (hk : k < 2 ^ 32) :
    sub a j = sub a k ↔ j = k := by
  unfold sub
  omega

/-! ## Masks -/

/-- Clearing the low `k` bits rounds down to a multiple of `2 ^ k`. -/
theorem and_not_low {x k : ℕ} (hk : k ≤ 32) (hx : x < 2 ^ 32) :
    x &&& not (2 ^ k - 1) = x / 2 ^ k * 2 ^ k := by
  have mask : not (2 ^ k - 1) = (2 ^ (32 - k) - 1) <<< k := by
    have pow_le : 2 ^ k ≤ 2 ^ 32 := Nat.pow_le_pow_right (by norm_num) hk
    have pow_pos : 0 < 2 ^ k := Nat.two_pow_pos k
    rw [Nat.shiftLeft_eq, Nat.sub_mul, ← pow_add, Nat.sub_add_cancel hk]
    unfold not
    omega
  apply Nat.eq_of_testBit_eq
  intro i
  rw [mask, Nat.testBit_and, Nat.testBit_shiftLeft, Nat.testBit_two_pow_sub_one,
    Nat.testBit_mul_two_pow, Nat.testBit_div_two_pow]
  by_cases low : k ≤ i
  · by_cases inside : i < 32
    · simp [low, show i - k < 32 - k by omega]
    · have high : x.testBit i = false :=
        Nat.testBit_lt_two_pow
          (lt_of_lt_of_le hx (Nat.pow_le_pow_right (by norm_num) (by omega)))
      simp [high, low]
  · simp [low]

/-- Keeping the low `k` bits is the remainder modulo `2 ^ k`. -/
theorem and_low (x k : ℕ) : x &&& (2 ^ k - 1) = x % 2 ^ k :=
  Nat.and_two_pow_sub_one_eq_mod x k

/-- Setting bit zero of an even number adds one. -/
theorem or_one_of_even {x : ℕ} (even : x % 2 = 0) : x ||| 1 = x + 1 := by
  obtain ⟨y, rfl⟩ : ∃ y, x = 2 * y := ⟨x / 2, by omega⟩
  have := Nat.two_pow_add_eq_or_of_lt (i := 1) (b := 1) (by norm_num) y
  simpa using this.symm

/-- Setting bit zero of an odd number changes nothing. -/
theorem or_one_of_odd {x : ℕ} (odd : x % 2 = 1) : x ||| 1 = x := by
  obtain ⟨y, rfl⟩ : ∃ y, x = 2 * y + 1 := ⟨x / 2, by omega⟩
  have base := or_one_of_even (x := 2 * y) (by omega)
  rw [← base, Nat.or_assoc, Nat.or_self]

-- The unifier must not try to compute with `2 ^ 32`; proofs use the lemmas above.
attribute [irreducible] add sub not

/-! ## Rounding up -/

/-- Rounding up to a multiple of `2 ^ k`. -/
def roundUp (k x : ℕ) : ℕ := (x + (2 ^ k - 1)) / 2 ^ k * 2 ^ k

theorem roundUp_of_mod_eq_zero {k x : ℕ} (exact : x % 2 ^ k = 0) : roundUp k x = x := by
  have pow_pos : 0 < 2 ^ k := Nat.two_pow_pos k
  have split := Nat.div_add_mod' x (2 ^ k)
  have quotient : (x + (2 ^ k - 1)) / 2 ^ k = x / 2 ^ k := by
    refine Nat.div_eq_of_lt_le (by omega) ?_
    rw [Nat.add_mul, Nat.one_mul]
    omega
  rw [roundUp, quotient]
  omega

theorem roundUp_of_mod_ne_zero {k x : ℕ} (inexact : x % 2 ^ k ≠ 0) :
    roundUp k x = x / 2 ^ k * 2 ^ k + 2 ^ k := by
  have bound := Nat.mod_lt x (Nat.two_pow_pos k)
  have split := Nat.div_add_mod' x (2 ^ k)
  have quotient : (x + (2 ^ k - 1)) / 2 ^ k = x / 2 ^ k + 1 := by
    refine Nat.div_eq_of_lt_le ?_ ?_
    · rw [Nat.add_mul, Nat.one_mul]
      omega
    · rw [Nat.add_mul, Nat.add_mul, Nat.one_mul]
      omega
  rw [roundUp, quotient, Nat.add_mul, Nat.one_mul]

end Word32
