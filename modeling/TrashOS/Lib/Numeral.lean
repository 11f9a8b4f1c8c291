import Mathlib.Data.Nat.Digits.Lemmas

/-!
# Numerals

`numeral b n` is the canonical numeral of `n` in base `b`: the digits from the
highest one down, without a leading zero unless the number is zero.
`digitsFrom b k n` is what a loop computes that divides by `b ^ k`, `b ^ (k - 1)`,
…, `1` in turn; the two agree when `k` is the logarithm of `n`.
-/

namespace Numeral

variable {b k n : ℕ}

/-- The canonical numeral. -/
def numeral (b n : ℕ) : List ℕ := if n = 0 then [0] else (Nat.digits b n).reverse

/-- The digits of `n` from that of `b ^ k` downwards. -/
def digitsFrom (b : ℕ) : ℕ → ℕ → List ℕ
  | 0, n => [n]
  | k + 1, n => n / b ^ (k + 1) :: digitsFrom b k (n % b ^ (k + 1))

theorem length_digitsFrom (b k n : ℕ) : (digitsFrom b k n).length = k + 1 := by
  induction k generalizing n with
  | zero => rfl
  | succ k ih => rw [digitsFrom, List.length_cons, ih]

/-- Reading the digits back gives the number. -/
theorem ofDigits_digitsFrom (b k n : ℕ) : Nat.ofDigits b (digitsFrom b k n).reverse = n := by
  induction k generalizing n with
  | zero => simp [digitsFrom]
  | succ k ih =>
      rw [digitsFrom, List.reverse_cons, Nat.ofDigits_append, ih, Nat.ofDigits_singleton,
        List.length_reverse, length_digitsFrom, Nat.mod_add_div]

/-- The digits of a number are below the base when it has no digit above the first. -/
theorem lt_of_mem_digitsFrom (low : n < b ^ (k + 1)) {d : ℕ} (member : d ∈ digitsFrom b k n) :
    d < b := by
  induction k generalizing n with
  | zero =>
      rw [List.mem_singleton.mp member]
      simpa using low
  | succ k ih =>
      have pos : 0 < b ^ (k + 1) := by
        rcases Nat.eq_zero_or_pos (b ^ (k + 1)) with zero | pos
        · rw [pow_succ, zero, Nat.zero_mul] at low
          exact absurd low (Nat.not_lt_zero n)
        · exact pos
      rcases List.mem_cons.mp member with rfl | rest
      · rw [Nat.div_lt_iff_lt_mul pos, ← pow_succ']
        exact low
      · exact ih (Nat.mod_lt n pos) rest

/-- The lowest digit comes last. -/
theorem digitsFrom_succ_eq (k n : ℕ) :
    digitsFrom b (k + 1) n = digitsFrom b k (n / b) ++ [n % b] := by
  induction k generalizing n with
  | zero => simp [digitsFrom]
  | succ k ih =>
      rw [digitsFrom, ih, digitsFrom, List.cons_append]
      congr 1
      · rw [Nat.div_div_eq_div_mul, pow_succ']
      · have quotient : n % b ^ (k + 2) / b = n / b % b ^ (k + 1) := by
          rw [pow_succ' b (k + 1), Nat.mod_mul_right_div_self]
        have rest : n % b ^ (k + 2) % b = n % b := by
          rw [pow_succ' b (k + 1), Nat.mod_mul_right_mod]
        rw [show k + 1 + 1 = k + 2 from rfl, quotient, rest]

/-- **The loop from the logarithm down gives the numeral.** -/
theorem numeral_eq_digitsFrom (base : 1 < b) (high : k = 0 ∨ b ^ k ≤ n) (low : n < b ^ (k + 1)) :
    numeral b n = digitsFrom b k n := by
  induction k generalizing n with
  | zero =>
      rw [pow_one] at low
      unfold numeral digitsFrom
      split_ifs with zero
      · rw [zero]
      · rw [Nat.digits_of_lt b n zero low, List.reverse_singleton]
  | succ k ih =>
      have reached : b ^ (k + 1) ≤ n := high.resolve_left (Nat.succ_ne_zero k)
      have pos : 0 < b ^ (k + 1) := Nat.pow_pos (by omega)
      have nonzero : n ≠ 0 := by omega
      have quotient : b ^ k ≤ n / b := by
        rw [Nat.le_div_iff_mul_le (by omega), ← pow_succ]
        exact reached
      have still : n / b ≠ 0 := by
        have := Nat.pow_pos (n := k) (show 0 < b by omega)
        omega
      have below : n / b < b ^ (k + 1) := by
        rw [Nat.div_lt_iff_lt_mul (by omega), ← pow_succ]
        exact low
      rw [digitsFrom_succ_eq, ← ih (Or.inr quotient) below]
      unfold numeral
      rw [if_neg nonzero, if_neg still, Nat.digits_def' base (by omega), List.reverse_cons]

/-- A numeral has no leading zero, but for that of zero. -/
theorem head_numeral (nonzero : n ≠ 0) : (numeral b n).head? ≠ some 0 := by
  unfold numeral
  rw [if_neg nonzero, List.head?_reverse]
  intro zero
  have nonempty : Nat.digits b n ≠ [] := Nat.digits_ne_nil_iff_ne_zero.mpr nonzero
  rw [List.getLast?_eq_some_getLast nonempty, Option.some_inj] at zero
  exact Nat.getLast_digit_ne_zero b nonzero zero

/-- The digits of a numeral are below the base. -/
theorem lt_of_mem_numeral (base : 1 < b) {d : ℕ} (member : d ∈ numeral b n) : d < b := by
  unfold numeral at member
  split_ifs at member with zero
  · rw [List.mem_singleton.mp member]
    omega
  · exact Nat.digits_lt_base base (List.mem_reverse.mp member)

end Numeral
