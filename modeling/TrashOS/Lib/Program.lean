import Mathlib.Logic.Basic
import Mathlib.Tactic.Common

/-!
# Programs with state and failure

`Prog σ ε α` is a deterministic program over a state `σ` which either returns an
`α` together with a new state, or stops with a reason `ε`.  A loop of the
modelled program that may fail to terminate is written with a fuel argument and
stops when the fuel is used up, so `.ok` always means *the code returns*.

Reasoning is by two rules for sequencing.  `Prog.bind_of_ok` runs a program
forwards (total correctness: the first part returns, go on with the second).
`Prog.bind_eq_ok` takes a returned run apart (partial correctness: if the whole
returned, so did both parts).  `Prog.Keeps` is the rule for invariants and
`Prog.Follows` the one for relations between the state before and the state
after; both are closed under sequencing, branching and fuel-indexed loops.
-/

/-- A program over `σ` which may stop with `ε`. -/
def Prog (σ ε α : Type) : Type := σ → Except ε (α × σ)

namespace Prog

variable {σ ε α β : Type}

instance : Monad (Prog σ ε) where
  pure a := fun s => .ok (a, s)
  bind m f := fun s =>
    match m s with
    | .ok (a, s') => f a s'
    | .error e => .error e

/-- Stop with a reason. -/
def stop (e : ε) : Prog σ ε α := fun _ => .error e

/-- Read part of the state. -/
def read (f : σ → α) : Prog σ ε α := fun s => .ok (f s, s)

/-- Update the state. -/
def update (f : σ → σ) : Prog σ ε Unit := fun s => .ok ((), f s)

@[simp] theorem pure_run (a : α) (s : σ) : (pure a : Prog σ ε α) s = .ok (a, s) := rfl

@[simp] theorem stop_run (e : ε) (s : σ) : (stop e : Prog σ ε α) s = .error e := rfl

@[simp] theorem read_run (f : σ → α) (s : σ) :
    (read f : Prog σ ε α) s = .ok (f s, s) := rfl

@[simp] theorem update_run (f : σ → σ) (s : σ) :
    (update f : Prog σ ε Unit) s = .ok ((), f s) := rfl

/-- Forward rule: the first program returns, so run the second. -/
theorem bind_of_ok {m : Prog σ ε α} {f : α → Prog σ ε β} {s t : σ} {a : α}
    (first : m s = .ok (a, t)) : (m >>= f) s = f a t := by
  change (match m s with
    | .ok (a, s') => f a s'
    | .error e => .error e) = f a t
  rw [first]

/-- A sequence stops where its first program does. -/
theorem bind_of_error {m : Prog σ ε α} {f : α → Prog σ ε β} {s : σ} {e : ε}
    (first : m s = .error e) : (m >>= f) s = .error e := by
  change (match m s with
    | .ok (a, s') => f a s'
    | .error e => .error e) = .error e
  rw [first]

/-- Backward rule: a sequence that returned did so in both parts. -/
theorem bind_eq_ok {m : Prog σ ε α} {f : α → Prog σ ε β} {s t : σ} {b : β} :
    (m >>= f) s = .ok (b, t) ↔ ∃ a s', m s = .ok (a, s') ∧ f a s' = .ok (b, t) := by
  constructor
  · intro returned
    cases first : m s with
    | error e =>
        change (match m s with
          | .ok (a, s') => f a s'
          | .error e => .error e) = .ok (b, t) at returned
        rw [first] at returned
        cases returned
    | ok result =>
        exact ⟨result.1, result.2, rfl, (bind_of_ok first).symm.trans returned⟩
  · rintro ⟨a, s', first, second⟩
    exact (bind_of_ok first).trans second

/-- The run returns, and what it leaves passes the test `p`. -/
def passes (m : Prog σ ε α) (s : σ) (p : α → σ → Bool) : Bool :=
  match m s with
  | .ok (a, s') => p a s'
  | .error _ => false

/-- A closed run can be checked by evaluating it. -/
theorem exists_of_check {m : Prog σ ε α} {s : σ} (p : α → σ → Bool)
    (check : m.passes s p = true) : ∃ a s', m s = .ok (a, s') ∧ p a s' = true := by
  unfold passes at check
  cases run : m s with
  | error e =>
      rw [run] at check
      cases check
  | ok result =>
      rw [run] at check
      exact ⟨result.1, result.2, rfl, check⟩

/-- Sequencing is associative. -/
theorem bind_assoc {γ : Type} (m : Prog σ ε α) (f : α → Prog σ ε β) (g : β → Prog σ ε γ) :
    (m >>= f) >>= g = m >>= fun a => f a >>= g := by
  funext s
  cases first : m s with
  | error e =>
      change (match (match m s with
          | .ok (a, s') => f a s'
          | .error e => .error e) with
        | .ok (b, s') => g b s'
        | .error e => .error e) = (match m s with
        | .ok (a, s') => (f a >>= g) s'
        | .error e => .error e)
      rw [first]
  | ok result =>
      obtain ⟨a, s'⟩ := result
      rw [bind_of_ok first]
      cases second : f a s' with
      | error e =>
          change (match (m >>= f) s with
            | .ok (b, s') => g b s'
            | .error e => .error e) = (match f a s' with
            | .ok (b, s') => g b s'
            | .error e => .error e)
          rw [bind_of_ok first]
      | ok result' =>
          obtain ⟨b, t⟩ := result'
          rw [bind_of_ok second, bind_of_ok ((bind_of_ok first).trans second)]

/-! ## Invariants -/

/-- Whenever `m` returns from a state with the property, the state it leaves has
the property. -/
def Keeps (I : σ → Prop) (m : Prog σ ε α) : Prop :=
  ∀ s a s', I s → m s = .ok (a, s') → I s'

namespace Keeps

variable {I : σ → Prop} {m m' : Prog σ ε α} {f : α → Prog σ ε β}

theorem pure (a : α) : Keeps I (Pure.pure a : Prog σ ε α) := by
  intro s b s' holds returned
  cases returned
  exact holds

theorem stop (e : ε) : Keeps I (Prog.stop e : Prog σ ε α) := by
  intro s b s' _ returned
  cases returned

theorem bind (first : Keeps I m) (second : ∀ a, Keeps I (f a)) : Keeps I (m >>= f) := by
  intro s b t holds returned
  obtain ⟨a, s', hm, hf⟩ := bind_eq_ok.mp returned
  exact second a s' b t (first s a s' holds hm) hf

theorem ite {c : Prop} [Decidable c] (yes : Keeps I m) (no : Keeps I m') :
    Keeps I (if c then m else m') := by
  split
  · exact yes
  · exact no

end Keeps

/-! ## Relations between states -/

/-- Whenever `m` returns, the states before and after are related. -/
def Follows (R : σ → σ → Prop) (m : Prog σ ε α) : Prop :=
  ∀ s a s', m s = .ok (a, s') → R s s'

namespace Follows

variable {R S : σ → σ → Prop} {m m' : Prog σ ε α} {f : α → Prog σ ε β}

theorem pure [Std.Refl R] (a : α) : Follows R (Pure.pure a : Prog σ ε α) := by
  intro s b s' returned
  cases returned
  exact Std.Refl.refl s

theorem stop (e : ε) : Follows R (Prog.stop e : Prog σ ε α) := by
  intro s b s' returned
  cases returned

theorem bind [IsTrans σ R] (first : Follows R m) (second : ∀ a, Follows R (f a)) :
    Follows R (m >>= f) := by
  intro s b t returned
  obtain ⟨a, s', hm, hf⟩ := bind_eq_ok.mp returned
  exact IsTrans.trans _ _ _ (first s a s' hm) (second a s' b t hf)

theorem ite {c : Prop} [Decidable c] (yes : Follows R m) (no : Follows R m') :
    Follows R (if c then m else m') := by
  split
  · exact yes
  · exact no

theorem mono (sub : ∀ s s', R s s' → S s s') (follows : Follows R m) : Follows S m :=
  fun s a s' returned => sub s s' (follows s a s' returned)

end Follows

end Prog
