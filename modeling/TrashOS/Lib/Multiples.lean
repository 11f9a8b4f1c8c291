import Mathlib.Tactic.Common

/-!
# Multiples modulo a number

The multiples `a * r % M` of a fixed `a`, for `r = 1, 2, …`, jump up and down.
`Extremes a M p q` says where the lowest and the highest of them are, as long as
`r < p + q`; the next extreme is the multiple at `p + q`, and whether it is a new
maximum or a new minimum is seen from the two values alone.  So all records, the
multiples above all earlier ones, can be found by a short search
(`recordsHold`), although they lie far apart.
-/

namespace Multiples

variable {a M p q r : ℕ}

/-- Among the multiples below `p + q` the lowest is at `p` and the highest at `q`. -/
structure Extremes (a M p q : ℕ) : Prop where
  low_pos : 0 < p
  high_pos : 0 < q
  low : ∀ r, 0 < r → r < p + q → a * p % M ≤ a * r % M
  high : ∀ r, 0 < r → r < p + q → a * r % M ≤ a * q % M

theorem Extremes.one (a M : ℕ) : Extremes a M 1 1 := by
  have only : ∀ r, 0 < r → r < 1 + 1 → r = 1 := fun r pos small => by omega
  refine ⟨Nat.one_pos, Nat.one_pos, fun r pos small => ?_, fun r pos small => ?_⟩
  · exact (only r pos small) ▸ Nat.le_refl _
  · exact (only r pos small) ▸ Nat.le_refl _

/-- The sum of two multiples, when it stays below the modulus. -/
theorem add_mod_of_lt {x y : ℕ} (fits : a * x % M + a * y % M < M) :
    a * (x + y) % M = a * x % M + a * y % M := by
  rw [Nat.mul_add, Nat.add_mod, Nat.mod_eq_of_lt fits]

/-- And when it reaches the modulus. -/
theorem add_mod_of_le {x y : ℕ} (pos : 0 < M) (wraps : M ≤ a * x % M + a * y % M) :
    a * (x + y) % M = a * x % M + a * y % M - M := by
  have left := Nat.mod_lt (a * x) pos
  have right := Nat.mod_lt (a * y) pos
  rw [Nat.mul_add, Nat.add_mod, Nat.mod_eq_sub_mod wraps, Nat.mod_eq_of_lt (by omega)]

/-- **A new maximum** at `p + q`. -/
theorem Extremes.raise (extremes : Extremes a M p q) (fits : a * p % M + a * q % M < M) :
    Extremes a M p (p + q) := by
  obtain ⟨low_pos, high_pos, low, high⟩ := extremes
  have top : a * (p + q) % M = a * p % M + a * q % M := add_mod_of_lt fits
  -- a later multiple is an earlier one, moved up by the minimum
  have later : ∀ r, p + q < r → r < p + (p + q) →
      a * r % M = a * p % M + a * (r - p) % M ∧ a * (r - p) % M ≤ a * q % M := by
    intro r above small
    have le := high (r - p) (by omega) (by omega)
    refine ⟨?_, le⟩
    have split : r = p + (r - p) := by omega
    conv_lhs => rw [split]
    exact add_mod_of_lt (by omega)
  refine ⟨low_pos, by omega, fun r pos small => ?_, fun r pos small => ?_⟩
  · rcases Nat.lt_trichotomy r (p + q) with earlier | here | above
    · exact low r pos earlier
    · rw [here, top]
      omega
    · rw [(later r above small).1]
      omega
  · rcases Nat.lt_trichotomy r (p + q) with earlier | here | above
    · have := high r pos earlier
      omega
    · exact here ▸ Nat.le_refl _
    · obtain ⟨value, le⟩ := later r above small
      omega

/-- **A new minimum** at `p + q`. -/
theorem Extremes.lower (extremes : Extremes a M p q) (mod_pos : 0 < M)
    (wraps : M ≤ a * p % M + a * q % M) : Extremes a M (p + q) q := by
  obtain ⟨low_pos, high_pos, low, high⟩ := extremes
  have bottom : a * (p + q) % M = a * p % M + a * q % M - M := add_mod_of_le mod_pos wraps
  have low_word := Nat.mod_lt (a * p) mod_pos
  have high_word := Nat.mod_lt (a * q) mod_pos
  -- a later multiple is an earlier one, moved down to the maximum less the modulus
  have later : ∀ r, p + q < r → r < p + q + q →
      a * r % M = a * q % M + a * (r - q) % M - M ∧ a * p % M ≤ a * (r - q) % M ∧
        a * (r - q) % M ≤ a * q % M := by
    intro r above small
    have ge := low (r - q) (by omega) (by omega)
    refine ⟨?_, ge, high (r - q) (by omega) (by omega)⟩
    have split : r = q + (r - q) := by omega
    conv_lhs => rw [split]
    exact add_mod_of_le mod_pos (by omega)
  refine ⟨by omega, high_pos, fun r pos small => ?_, fun r pos small => ?_⟩
  · rcases Nat.lt_trichotomy r (p + q) with earlier | here | above
    · have := low r pos earlier
      omega
    · exact here ▸ Nat.le_refl _
    · obtain ⟨value, ge, -⟩ := later r above small
      omega
  · rcases Nat.lt_trichotomy r (p + q) with earlier | here | above
    · exact high r pos earlier
    · rw [here]
      omega
    · obtain ⟨value, -, le⟩ := later r above small
      omega

/-- The multiple at `r` is above all earlier ones. -/
def Record (a M r : ℕ) : Prop := ∀ s < r, a * s % M < a * r % M

/-- Go through the records after `q` and test each, up to the one whose multiple is
`top`. -/
def recordsHold (a M top : ℕ) (test : ℕ → Bool) : ℕ → ℕ → ℕ → Bool
  | 0, _, _ => false
  | turns + 1, p, q =>
      if a * q % M = top then
        true
      else if a * p % M + a * q % M < M then
        test (p + q) && recordsHold a M top test turns p (p + q)
      else
        recordsHold a M top test turns (p + q) q

/-- **The search finds every record.** -/
theorem holds_of_record {top turns : ℕ} {test : ℕ → Bool} (mod_pos : 0 < M)
    (bound : ∀ r, a * r % M ≤ top) (extremes : Extremes a M p q)
    (searched : recordsHold a M top test turns p q = true) (later : q < r)
    (record : Record a M r) : test r = true := by
  induction turns generalizing p q with
  | zero => cases searched
  | succ turns ih =>
      unfold recordsHold at searched
      have beyond := record q later
      by_cases final : a * q % M = top
      · exact absurd (bound r) (by omega)
      · rw [if_neg final] at searched
        by_cases fits : a * p % M + a * q % M < M
        · rw [if_pos fits, Bool.and_eq_true] at searched
          rcases Nat.lt_trichotomy r (p + q) with earlier | here | above
          · exact absurd (extremes.high r (by omega) earlier) (by omega)
          · rw [here]
            exact searched.1
          · exact ih (extremes.raise fits) searched.2 above
        · rw [if_neg fits] at searched
          exact ih (extremes.lower mod_pos (by omega)) searched later

end Multiples
