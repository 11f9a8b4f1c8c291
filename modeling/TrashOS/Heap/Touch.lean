import TrashOS.Alloc
import TrashOS.Heap.Basic

/-!
# Runs with a footprint

Straight-line allocator code is run forwards, keeping track of the set of words
it is allowed to access.  `Runs A s m a s'` says that `m` returns `a` from `s`
in `s'`, that it loaded and stored words in `A` only, and that the page layer
did not change.  The rules follow the code: `Runs.bind` for a sequence,
`Runs.load` and `Runs.store` for an access, and so on.

The footprint of an allocator function is `Footprint lo hi keep`: the words
between `lo` and `hi` outside the chunks in `keep`.  What the allocator may not
touch is thereby part of every specification.
-/

namespace TrashOS

variable {π : Type} [PageLayer π] {A B : ℕ → Prop} {s s' s'' : Sys π} {α β : Type}

/-- The words from `lo` up to `hi` that lie in none of the chunks `keep`. -/
def Footprint (lo hi : ℕ) (keep : Chunk → Prop) (a : ℕ) : Prop :=
  lo ≤ a ∧ a < hi ∧ ∀ c, keep c → ¬ c.Holds a

theorem Footprint.mono {lo hi hi' : ℕ} {keep : Chunk → Prop} (le : hi ≤ hi') {a : ℕ}
    (inside : Footprint lo hi keep a) : Footprint lo hi' keep a :=
  ⟨inside.1, inside.2.1.trans_le le, inside.2.2⟩

/-- A log entry is an access to a word in `A`, made under the page layer
`pages`. -/
def Access (A : ℕ → Prop) (pages : π) (e : Event π) : Prop :=
  ∃ a, A a ∧ (e = .load a (PageLayer.mapped pages a) ∨
    e = .store a (PageLayer.mapped pages a))

/-- `s'` comes from `s` by accesses to words in `A`. -/
structure Touch (A : ℕ → Prop) (s s' : Sys π) : Prop where
  mem : ∀ a, ¬ A a → s'.mem a = s.mem a
  pages : s'.pages = s.pages
  start : s'.ctxt.start = s.ctxt.start
  log : ∃ es, s'.log = es ++ s.log ∧ ∀ e ∈ es, Access A s.pages e

namespace Touch

theorem refl (A : ℕ → Prop) (s : Sys π) : Touch A s s :=
  ⟨fun _ _ => rfl, rfl, rfl, [], rfl, by simp⟩

theorem trans (first : Touch A s s') (second : Touch A s' s'') : Touch A s s'' := by
  obtain ⟨es, logEq, inA⟩ := first.log
  obtain ⟨es', logEq', inA'⟩ := second.log
  refine ⟨fun a out => (second.mem a out).trans (first.mem a out),
    second.pages.trans first.pages, second.start.trans first.start,
    es' ++ es, by rw [logEq', logEq, List.append_assoc], fun e member => ?_⟩
  rcases List.mem_append.mp member with late | early
  · simpa only [first.pages] using inA' e late
  · exact inA e early

theorem mono (sub : ∀ a, A a → B a) (touch : Touch A s s') : Touch B s s' := by
  obtain ⟨es, logEq, inA⟩ := touch.log
  refine ⟨fun a out => touch.mem a fun inside => out (sub a inside), touch.pages, touch.start,
    es, logEq, fun e member => ?_⟩
  obtain ⟨a, inside, shape⟩ := inA e member
  exact ⟨a, sub a inside, shape⟩

end Touch

/-! ## Straight-line runs -/

/-- `m` returns `a` from `s` in the state `s'`, touching words in `A` only. -/
def Runs (A : ℕ → Prop) (s : Sys π) (m : KM π α) (a : α) (s' : Sys π) : Prop :=
  m s = .ok (a, s') ∧ Touch A s s'

namespace Runs

variable {m : KM π α} {f : α → KM π β} {a : α} {b : β}

theorem pure (a : α) : Runs A s (Pure.pure a : KM π α) a s :=
  ⟨rfl, Touch.refl A s⟩

theorem bind (first : Runs A s m a s') (second : Runs A s' (f a) b s'') :
    Runs A s (m >>= f) b s'' :=
  ⟨(Prog.bind_of_ok first.1).trans second.1, first.2.trans second.2⟩

theorem mono (sub : ∀ x, A x → B x) (run : Runs A s m a s') : Runs B s m a s' :=
  ⟨run.1, run.2.mono sub⟩

theorem load {x : ℕ} (inside : A x) : Runs A s (TrashOS.load x) (s.mem x) (s.loaded x) := by
  refine ⟨rfl, fun _ _ => rfl, rfl, rfl, [.load x (PageLayer.mapped s.pages x)], rfl, ?_⟩
  intro e member
  exact ⟨x, inside, Or.inl (List.mem_singleton.mp member)⟩

/-- A load whose value is known. -/
theorem load_eq {x v : ℕ} (inside : A x) (value : s.mem x = v) :
    Runs A s (TrashOS.load x) v (s.loaded x) := value ▸ load inside

theorem store {x v : ℕ} (inside : A x) : Runs A s (TrashOS.store x v) () (s.stored x v) := by
  refine ⟨rfl, fun y out => ?_, rfl, rfl, [.store x (PageLayer.mapped s.pages x)], rfl, ?_⟩
  · exact Function.update_of_ne (show y ≠ x from fun eq => out (eq ▸ inside)) _ _
  · intro e member
    exact ⟨x, inside, Or.inr (List.mem_singleton.mp member)⟩

theorem getFreeList : Runs A s TrashOS.getFreeList s.ctxt.freeList s :=
  ⟨rfl, Touch.refl A s⟩

theorem getEnd : Runs A s TrashOS.getEnd s.ctxt.heapEnd s :=
  ⟨rfl, Touch.refl A s⟩

/-- The state with a new free list head. -/
theorem setFreeList (n : ℕ) :
    Runs A s (TrashOS.setFreeList n) ()
      { s with ctxt := { s.ctxt with freeList := n } } :=
  ⟨rfl, fun _ _ => rfl, rfl, rfl, [], rfl, by simp⟩

/-- The state with a new heap end. -/
theorem setEnd (n : ℕ) :
    Runs A s (TrashOS.setEnd n) () { s with ctxt := { s.ctxt with heapEnd := n } } :=
  ⟨rfl, fun _ _ => rfl, rfl, rfl, [], rfl, by simp⟩

theorem ite_pos {c : Prop} [Decidable c] {m' : KM π α} (holds : c) (run : Runs A s m a s') :
    Runs A s (if c then m else m') a s' := by
  rwa [if_pos holds]

theorem ite_neg {c : Prop} [Decidable c] {m' : KM π α} (fails : ¬ c) (run : Runs A s m a s') :
    Runs A s (if c then m' else m) a s' := by
  rwa [if_neg fails]

end Runs

/-! ## Stores and callbacks -/

section Callbacks

variable {π : Type} {A B : ℕ → Prop} {s s' s'' : Sys π} {α : Type}

/-- Every word stored between `s` and `s'` lies in `A`. -/
def Stores (A : ℕ → Prop) (s s' : Sys π) : Prop :=
  ∃ es, s'.log = es ++ s.log ∧ ∀ a mapped, Event.store a mapped ∈ es → A a

theorem Stores.refl (A : ℕ → Prop) (s : Sys π) : Stores A s s := ⟨[], rfl, by simp⟩

theorem Stores.trans (first : Stores A s s') (second : Stores A s' s'') : Stores A s s'' := by
  obtain ⟨es, logEq, inA⟩ := first
  obtain ⟨es', logEq', inA'⟩ := second
  refine ⟨es' ++ es, by rw [logEq', logEq, List.append_assoc], fun a mapped member => ?_⟩
  rcases List.mem_append.mp member with late | early
  · exact inA' a mapped late
  · exact inA a mapped early

theorem Stores.mono (sub : ∀ a, A a → B a) (stores : Stores A s s') : Stores B s s' := by
  obtain ⟨es, logEq, inA⟩ := stores
  exact ⟨es, logEq, fun a mapped member => sub a (inA a mapped member)⟩

theorem Touch.stores [PageLayer π] (touch : Touch A s s') : Stores A s s' := by
  obtain ⟨es, logEq, inA⟩ := touch.log
  refine ⟨es, logEq, fun a mapped member => ?_⟩
  obtain ⟨b, inside, shape | shape⟩ := inA _ member
  · cases shape
  · cases shape
    exact inside

/-- The words of a heap context: from its first descriptor up to its end. -/
def OwnWord (s : Sys π) (a : ℕ) : Prop :=
  align s.ctxt.start kmMinAllocSize ≤ a ∧ a < s.ctxt.heapEnd

/-- `s'` agrees with `s` on the heap context and on its words, and none of them
was stored to in between. -/
structure Undisturbed (s s' : Sys π) : Prop where
  mem : ∀ a, OwnWord s a → s'.mem a = s.mem a
  ctxt : s'.ctxt = s.ctxt
  stores : Stores (fun a => ¬ OwnWord s a) s s'

theorem Undisturbed.refl (s : Sys π) : Undisturbed s s :=
  ⟨fun _ _ => rfl, rfl, Stores.refl _ s⟩

theorem Undisturbed.trans (first : Undisturbed s s') (second : Undisturbed s' s'') :
    Undisturbed s s'' := by
  have same : ∀ a, OwnWord s' a ↔ OwnWord s a := fun a => by
    unfold OwnWord
    rw [first.ctxt]
  exact ⟨fun a own => (second.mem a ((same a).mpr own)).trans (first.mem a own),
    second.ctxt.trans first.ctxt,
    first.stores.trans (second.stores.mono fun a out own => out ((same a).mpr own))⟩

/-- A computation of the page layer that does not call back into the heap: it
leaves the context and its words alone. -/
def Quiet (m : KM π α) : Prop := ∀ s a s', m s = .ok (a, s') → Undisturbed s s'

theorem quiet_pure (a : α) : Quiet (pure a : KM π α) := by
  intro s b s' returned
  cases returned
  exact Undisturbed.refl s

end Callbacks

end TrashOS
