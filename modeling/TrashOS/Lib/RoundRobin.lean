import Mathlib.Algebra.BigOperators.Group.List.Basic
import Mathlib.Algebra.GroupWithZero.Nat
import Mathlib.Data.List.Nodup
import Mathlib.Logic.Function.Basic
import Mathlib.Tactic.Common

/-!
# Weighted round robin

A queue of clients, each with a number of time slices left.  A tick charges the
head of the queue; when its last slice is used up, its count is reset to its
weight and it goes to the end of the queue.

`Slices.round` is the exact schedule: starting with full counts, the clients are
served in queue order, each for as many consecutive ticks as its weight, and a
round leaves the state as it was.  `Slices.rounds` repeats it.

Clients may also join at the end of the queue at any time.  `Slices.wait` is the number
of slices in front of a client; ticks count it down and nobody who joins adds to it, so
`Slices.Turns.served_iff` says when a client is served, whatever happens meanwhile.
-/

/-- A queue with the number of slices every client has left. -/
structure Slices (α : Type*) where
  queue : List α
  left : α → ℕ

namespace Slices

variable {α : Type*} [DecidableEq α] (weight : α → ℕ)

/-- One tick. -/
def tick (st : Slices α) : Slices α :=
  match st.queue with
  | [] => st
  | x :: xs =>
      if st.left x = 1 then
        ⟨xs ++ [x], Function.update st.left x (weight x)⟩
      else
        ⟨x :: xs, Function.update st.left x (st.left x - 1)⟩

/-- The state after `n` ticks. -/
def after : ℕ → Slices α → Slices α
  | 0, st => st
  | n + 1, st => after n (st.tick weight)

/-- The clients charged for the next `n` ticks. -/
def trace : ℕ → Slices α → List α
  | 0, _ => []
  | n + 1, st => st.queue.head?.toList ++ trace n (st.tick weight)

variable {weight}

theorem after_add (m n : ℕ) (st : Slices α) :
    st.after weight (m + n) = (st.after weight m).after weight n := by
  induction m generalizing st with
  | zero => rw [Nat.zero_add]; rfl
  | succ m ih =>
      rw [Nat.succ_add]
      exact ih (st.tick weight)

theorem trace_add (m n : ℕ) (st : Slices α) :
    st.trace weight (m + n) = st.trace weight m ++ (st.after weight m).trace weight n := by
  induction m generalizing st with
  | zero => rw [Nat.zero_add]; rfl
  | succ m ih =>
      rw [Nat.succ_add]
      change _ ++ _ = (_ ++ _) ++ _
      rw [ih, List.append_assoc]
      rfl

/-- A tick keeps the clients of the queue. -/
theorem mem_tick {st : Slices α} {x : α} : x ∈ (st.tick weight).queue ↔ x ∈ st.queue := by
  unfold tick
  split
  · rfl
  · rename_i y ys shape
    rw [shape]
    split
    · rw [List.mem_append, List.mem_singleton, List.mem_cons, or_comm]
    · rfl

/-- A tick keeps every count positive and below a bound on the weights. -/
theorem left_tick {st : Slices α} {bound : ℕ}
    (weights : ∀ x ∈ st.queue, 0 < weight x ∧ weight x < bound)
    (counts : ∀ x ∈ st.queue, 0 < st.left x ∧ st.left x < bound) :
    ∀ x ∈ (st.tick weight).queue,
      0 < (st.tick weight).left x ∧ (st.tick weight).left x < bound := by
  intro x member
  have old := mem_tick.mp member
  have weightX := weights x old
  have countX := counts x old
  unfold tick
  split
  · exact countX
  · split
    · simp only [Function.update_apply]
      split_ifs with same
      · exact same ▸ weightX
      · exact countX
    · simp only [Function.update_apply]
      split_ifs with same
      · subst same
        omega
      · exact countX

/-- A time slice: the head is charged for all it has left, then goes to the
end. -/
theorem slice (weight : α → ℕ) (x : α) (xs : List α) {l : α → ℕ} {n : ℕ}
    (some : l x = n + 1) :
    (Slices.mk (x :: xs) l).after weight (n + 1)
        = ⟨xs ++ [x], Function.update l x (weight x)⟩ ∧
      (Slices.mk (x :: xs) l).trace weight (n + 1) = List.replicate (n + 1) x := by
  induction n generalizing l with
  | zero => simp [after, trace, tick, some]
  | succ n ih =>
      have charged : (Slices.mk (x :: xs) l).tick weight
          = ⟨x :: xs, Function.update l x (n + 1)⟩ := by
        simp [tick, some]
      obtain ⟨state, served⟩ := ih (l := Function.update l x (n + 1)) (by simp)
      constructor
      · change ((Slices.mk (x :: xs) l).tick weight).after weight (n + 1) = _
        rw [charged, state, Function.update_idem]
      · change [x] ++ ((Slices.mk (x :: xs) l).tick weight).trace weight (n + 1) = _
        rw [charged, served]
        rfl

/-- **One pass over a prefix of the queue**, every client of which has a full
count. -/
theorem pass (xs ys : List α) {left : α → ℕ}
    (full : ∀ x ∈ xs, left x = weight x ∧ 0 < weight x) :
    (Slices.mk (xs ++ ys) left).after weight (xs.map weight).sum = ⟨ys ++ xs, left⟩ ∧
      (Slices.mk (xs ++ ys) left).trace weight (xs.map weight).sum
        = xs.flatMap fun x => List.replicate (weight x) x := by
  induction xs generalizing ys with
  | nil => simp [after, trace]
  | cons x xs ih =>
      obtain ⟨fullX, pos⟩ := full x (by simp)
      obtain ⟨n, count⟩ : ∃ n, weight x = n + 1 := ⟨weight x - 1, by omega⟩
      obtain ⟨state, served⟩ := slice weight x (xs ++ ys) (fullX.trans count)
      have reset : Function.update left x (weight x) = left := by
        rw [← fullX, Function.update_eq_self]
      obtain ⟨state', served'⟩ := ih (ys ++ [x]) fun y member =>
        full y (List.mem_cons_of_mem _ member)
      rw [reset, List.append_assoc] at state
      rw [List.map_cons, List.sum_cons, count, after_add, trace_add, List.cons_append, state,
        state', served, served', List.flatMap_cons, count, List.append_assoc]
      exact ⟨rfl, rfl⟩

/-- **A round** serves every client for its weight, in queue order, and changes
nothing. -/
theorem round {xs : List α} {left : α → ℕ} (full : ∀ x ∈ xs, left x = weight x ∧ 0 < weight x) :
    (Slices.mk xs left).after weight (xs.map weight).sum = ⟨xs, left⟩ ∧
      (Slices.mk xs left).trace weight (xs.map weight).sum
        = xs.flatMap fun x => List.replicate (weight x) x := by
  simpa using pass xs [] full

/-- Any number of rounds. -/
theorem rounds (weight : α → ℕ) {xs : List α} {left : α → ℕ}
    (full : ∀ x ∈ xs, left x = weight x ∧ 0 < weight x) (n : ℕ) :
    (Slices.mk xs left).after weight (n * (xs.map weight).sum) = ⟨xs, left⟩ ∧
      (Slices.mk xs left).trace weight (n * (xs.map weight).sum)
        = (List.replicate n (xs.flatMap fun x => List.replicate (weight x) x)).flatten := by
  obtain ⟨state, served⟩ := round full
  induction n with
  | zero => simp [after, trace]
  | succ n ih =>
      rw [Nat.succ_mul, Nat.add_comm, after_add, trace_add, state, served, ih.1, ih.2,
        List.replicate_succ, List.flatten_cons]
      exact ⟨rfl, rfl⟩

/-! ## Waiting -/

/-- A client that is not queued joins at the end, with `n` slices. -/
def join (st : Slices α) (y : α) (n : ℕ) : Slices α :=
  ⟨st.queue ++ [y], Function.update st.left y n⟩

/-- The slices in front of `x`. -/
def wait (st : Slices α) (x : α) : ℕ := ((st.queue.takeWhile fun y => y ≠ x).map st.left).sum

/-- Everybody is queued once and has a slice left. -/
structure Fair (st : Slices α) : Prop where
  nodup : st.queue.Nodup
  pos : ∀ x ∈ st.queue, 0 < st.left x

section Wait

variable {st : Slices α} {x y : α} {n : ℕ}

theorem wait_cons_self (xs : List α) (left : α → ℕ) : (Slices.mk (x :: xs) left).wait x = 0 := by
  simp [wait]

theorem wait_cons_of_ne (differs : y ≠ x) (xs : List α) (left : α → ℕ) :
    (Slices.mk (y :: xs) left).wait x = left y + (Slices.mk xs left).wait x := by
  simp [wait, differs]

/-- Nobody who comes later is in front of `x`. -/
theorem wait_append {xs : List α} (member : x ∈ xs) (ys : List α) (left : α → ℕ) :
    (Slices.mk (xs ++ ys) left).wait x = (Slices.mk xs left).wait x := by
  induction xs with
  | nil => cases member
  | cons z zs ih =>
      rw [List.cons_append]
      by_cases same : z = x
      · rw [same, wait_cons_self, wait_cons_self]
      · rw [wait_cons_of_ne same, wait_cons_of_ne same,
          ih ((List.mem_cons.mp member).resolve_left (Ne.symm same))]

/-- Only the slices of queued clients count. -/
theorem wait_congr {xs : List α} {left left' : α → ℕ} (same : ∀ y ∈ xs, left' y = left y) :
    (Slices.mk xs left').wait x = (Slices.mk xs left).wait x := by
  unfold wait
  exact congrArg List.sum (List.map_congr_left fun y member =>
    same y ((List.takeWhile_sublist _).subset member))

/-- Everybody who is queued is served or waits. -/
theorem Fair.wait_eq_zero (fair : st.Fair) (member : x ∈ st.queue) :
    st.wait x = 0 ↔ st.queue.head? = some x := by
  obtain ⟨queue, left⟩ := st
  cases queue with
  | nil => cases member
  | cons y ys =>
      by_cases same : y = x
      · simp [same, wait_cons_self]
      · have pos := fair.pos y List.mem_cons_self
        dsimp only at pos
        rw [wait_cons_of_ne same, List.head?_cons, Option.some_inj]
        constructor
        · intro none
          omega
        · exact fun here => absurd here same

/-- Who joins does not make anybody wait longer. -/
theorem wait_join (member : x ∈ st.queue) (new : y ∉ st.queue) (n : ℕ) :
    (st.join y n).wait x = st.wait x := by
  refine (wait_append member _ _).trans (wait_congr fun z memZ => ?_)
  have differs : z ≠ y := fun same => new (same ▸ memZ)
  exact Function.update_of_ne differs _ _

theorem Fair.join (fair : st.Fair) (new : y ∉ st.queue) (pos : 0 < n) : (st.join y n).Fair where
  nodup := by
    refine List.nodup_append.mpr ⟨fair.nodup, List.nodup_singleton y, fun z memZ w memW same => ?_⟩
    rw [same, List.mem_singleton.mp memW] at memZ
    exact new memZ
  pos z memZ := by
    change 0 < Function.update st.left y n z
    by_cases same : z = y
    · rwa [same, Function.update_self]
    · rw [Function.update_of_ne same]
      refine fair.pos z ((List.mem_append.mp memZ).resolve_right fun last => ?_)
      exact same (List.mem_singleton.mp last)

theorem Fair.tick (fair : st.Fair) (weights : ∀ x ∈ st.queue, 0 < weight x) :
    (st.tick weight).Fair := by
  obtain ⟨queue, left⟩ := st
  refine ⟨?_, fun x member => ?_⟩
  · have nodup := fair.nodup
    cases queue with
    | nil => exact nodup
    | cons y ys =>
        unfold Slices.tick
        dsimp only at nodup ⊢
        split
        · exact (List.perm_append_singleton y ys).nodup_iff.mpr nodup
        · exact nodup
  · have old := mem_tick.mp member
    have pos := fair.pos x old
    have heavy := weights x old
    cases queue with
    | nil => cases old
    | cons y ys =>
        unfold Slices.tick
        dsimp only at pos ⊢
        split
        · dsimp only
          rw [Function.update_apply]
          split_ifs with same
          · rwa [same] at heavy
          · exact pos
        · dsimp only
          rw [Function.update_apply]
          split_ifs with same
          · rw [same] at pos
            omega
          · exact pos

/-- **A tick that serves somebody else** is one slice less to wait. -/
theorem Fair.wait_tick (weight : α → ℕ) (fair : st.Fair) (member : x ∈ st.queue)
    (other : st.queue.head? ≠ some x) :
    (st.tick weight).wait x + 1 = st.wait x ∧ (st.tick weight).left x = st.left x := by
  obtain ⟨queue, left⟩ := st
  cases queue with
  | nil => cases member
  | cons y ys =>
      have differs : y ≠ x := fun same => other (congrArg some same)
      have rest : x ∈ ys := (List.mem_cons.mp member).resolve_left differs.symm
      have notIn : ∀ z ∈ ys, z ≠ y := fun z memZ same =>
        (List.nodup_cons.mp fair.nodup).1 (same ▸ memZ)
      have pos := fair.pos y List.mem_cons_self
      unfold Slices.tick
      dsimp only at pos ⊢
      split_ifs with last
      · have same : (Slices.mk ys (Function.update left y (weight y))).wait x =
            (Slices.mk ys left).wait x :=
          wait_congr fun z memZ => Function.update_of_ne (notIn z memZ) _ _
        rw [wait_append rest, same, wait_cons_of_ne differs]
        exact ⟨by omega, Function.update_of_ne differs.symm _ _⟩
      · have same : (Slices.mk ys (Function.update left y (left y - 1))).wait x =
            (Slices.mk ys left).wait x :=
          wait_congr fun z memZ => Function.update_of_ne (notIn z memZ) _ _
        rw [wait_cons_of_ne differs, wait_cons_of_ne differs, Function.update_self, same]
        exact ⟨by omega, Function.update_of_ne differs.symm _ _⟩

/-- **A tick that serves `x`** and is not its last slice. -/
theorem tick_head (weight : α → ℕ) (head : st.queue.head? = some x) (more : 1 < st.left x) :
    (st.tick weight).queue = st.queue ∧ (st.tick weight).left x + 1 = st.left x := by
  obtain ⟨queue, left⟩ := st
  cases queue with
  | nil => cases head
  | cons y ys =>
      obtain rfl : y = x := Option.some_inj.mp head
      unfold Slices.tick
      dsimp only at more ⊢
      rw [if_neg (by omega)]
      dsimp only
      refine ⟨rfl, ?_⟩
      rw [Function.update_self]
      omega

/-- The whole queue is a bound for the slices in front of a client and its own. -/
theorem wait_add_left_le (member : x ∈ st.queue) :
    st.wait x + st.left x ≤ (st.queue.map st.left).sum := by
  obtain ⟨queue, left⟩ := st
  dsimp only at member ⊢
  induction queue with
  | nil => cases member
  | cons y ys ih =>
      rw [List.map_cons, List.sum_cons]
      by_cases same : y = x
      · rw [same, wait_cons_self]
        omega
      · rw [wait_cons_of_ne same]
        have := ih ((List.mem_cons.mp member).resolve_left (Ne.symm same))
        omega

end Wait

/-- A run with `k` ticks, in which clients join at any time. -/
inductive Turns (st : Slices α) (weight : α → ℕ) : ℕ → Slices α → (α → ℕ) → Prop
  | refl : Turns st weight 0 st weight
  | tick {k : ℕ} {st' : Slices α} {weight' : α → ℕ} (run : Turns st weight k st' weight') :
      Turns st weight (k + 1) (st'.tick weight') weight'
  | join {k : ℕ} {st' : Slices α} {weight' : α → ℕ} {y : α} {n : ℕ}
      (run : Turns st weight k st' weight') (new : y ∉ st'.queue) (pos : 0 < n) :
      Turns st weight k (st'.join y n) (Function.update weight' y n)

section Served

variable {st st' : Slices α} {weight weight' : α → ℕ} {x : α} {k : ℕ}

/-- Where `x` is after `k` ticks of a run, of which the first `wait` served others. -/
structure Place (st : Slices α) (x : α) (k : ℕ) (st' : Slices α) (weight' : α → ℕ) : Prop where
  fair : st'.Fair
  weights : ∀ y ∈ st'.queue, 0 < weight' y
  member : x ∈ st'.queue
  total : st'.wait x + st'.left x + k = st.wait x + st.left x
  early : k ≤ st.wait x → st'.left x = st.left x
  late : st.wait x ≤ k → st'.wait x = 0

/-- **The place of a client in a run.**  Ticks move it on, and nobody who joins moves it
back. -/
theorem Turns.place (fair : st.Fair) (weights : ∀ y ∈ st.queue, 0 < weight y)
    (member : x ∈ st.queue) (run : Turns st weight k st' weight')
    (soon : k < st.wait x + st.left x) : Place st x k st' weight' := by
  induction run with
  | refl => exact ⟨fair, weights, member, rfl, fun _ => rfl, fun none => Nat.le_zero.mp none⟩
  | @tick k st' weight' run ih =>
      have place := ih (Nat.lt_of_succ_lt soon)
      have total := place.total
      have member' : x ∈ (st'.tick weight').queue := mem_tick.mpr place.member
      have weights' : ∀ y ∈ (st'.tick weight').queue, 0 < weight' y := fun y memY =>
        place.weights y (mem_tick.mp memY)
      have fair' := place.fair.tick place.weights
      by_cases head : st'.queue.head? = some x
      · have none := (place.fair.wait_eq_zero place.member).mpr head
        obtain ⟨queue, left⟩ := tick_head weight' head (by omega)
        have head' : (st'.tick weight').wait x = 0 :=
          (fair'.wait_eq_zero member').mpr (queue ▸ head)
        refine ⟨fair', weights', member', by omega, fun early => ?_, fun _ => head'⟩
        have := place.early (by omega)
        omega
      · have some : st'.wait x ≠ 0 := fun none =>
          head ((place.fair.wait_eq_zero place.member).mp none)
        obtain ⟨wait, left⟩ := place.fair.wait_tick weight' place.member head
        have early : k ≤ st.wait x := by
          by_contra passed
          exact some (place.late (by omega))
        have same := place.early early
        refine ⟨fair', weights', member', by omega, fun _ => by omega, fun late => by omega⟩
  | @join k st' weight' y n run new pos ih =>
      have place := ih soon
      have differs : x ≠ y := fun same => new (same ▸ place.member)
      have left : (st'.join y n).left x = st'.left x := Function.update_of_ne differs _ _
      have wait := wait_join place.member new n
      refine ⟨place.fair.join new pos, fun z memZ => ?_, List.mem_append_left _ place.member, ?_,
        fun early => ?_, fun late => ?_⟩
      · by_cases same : z = y
        · rwa [same, Function.update_self]
        · rw [Function.update_of_ne same]
          refine place.weights z ((List.mem_append.mp memZ).resolve_right fun last => ?_)
          exact same (List.mem_singleton.mp last)
      · rw [wait, left, place.total]
      · rw [left, place.early early]
      · rw [wait, place.late late]

/-- **When a client is served**: after as many ticks as there are slices in front of it,
and then for all its own slices. -/
theorem Turns.served_iff (fair : st.Fair) (weights : ∀ y ∈ st.queue, 0 < weight y)
    (member : x ∈ st.queue) (run : Turns st weight k st' weight')
    (soon : k < st.wait x + st.left x) : st'.queue.head? = some x ↔ st.wait x ≤ k := by
  have place := run.place fair weights member soon
  rw [← place.fair.wait_eq_zero place.member]
  refine ⟨fun none => ?_, place.late⟩
  by_contra early
  have same := place.early (by omega)
  have total := place.total
  omega

end Served

end Slices
