import Mathlib.Tactic.Common

/-!
# Counted loops

`Loop.upto n body s` runs `body 0`, `body 1`, …, `body (n - 1)` on the state `s`,
which is what `for (i = 0; i < n; i++)` does when the bound is not changed by the
body.  `Loop.upto_invariant` is the loop rule: a predicate that may mention the
index is proved at `0` and carried from `k` to `k + 1`.
-/

namespace Loop

variable {σ : Type*}

/-- `for (k = 0; k < n; k++) body(k)`. -/
def upto (n : ℕ) (body : ℕ → σ → σ) (s : σ) : σ :=
  match n with
  | 0 => s
  | n + 1 => body n (upto n body s)

@[simp] theorem upto_zero (body : ℕ → σ → σ) (s : σ) : upto 0 body s = s := rfl

theorem upto_succ (n : ℕ) (body : ℕ → σ → σ) (s : σ) :
    upto (n + 1) body s = body n (upto n body s) := rfl

/-- **The loop rule.** -/
theorem upto_invariant {body : ℕ → σ → σ} {s : σ} {motive : ℕ → σ → Prop} (n : ℕ)
    (start : motive 0 s) (step : ∀ k < n, ∀ t, motive k t → motive (k + 1) (body k t)) :
    motive n (upto n body s) := by
  induction n with
  | zero => exact start
  | succ n ih =>
    have before : motive n (upto n body s) :=
      ih fun k hk => step k (Nat.lt_succ_of_lt hk)
    exact step n n.lt_succ_self _ before

/-- A loop cut in two. -/
theorem upto_add (m n : ℕ) (body : ℕ → σ → σ) (s : σ) :
    upto (m + n) body s = upto n (fun k => body (m + k)) (upto m body s) := by
  induction n with
  | zero => rfl
  | succ n ih => rw [Nat.add_succ, upto_succ, upto_succ, ih]

/-- Two nested loops over the cells of a table are one loop over all cells. -/
theorem upto_nested (m n : ℕ) (body : ℕ → σ → σ) (s : σ) :
    upto m (fun y t => upto n (fun x => body (y * n + x)) t) s = upto (m * n) body s := by
  induction m with
  | zero => rw [Nat.zero_mul, upto_zero, upto_zero]
  | succ m ih => rw [upto_succ, ih, Nat.succ_mul, upto_add]

end Loop
