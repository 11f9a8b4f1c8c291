import TrashOS.Lib.RoundRobin
import TrashOS.Proc.Queue

/-!
# Exact weighted round robin

`proc_next` refines the abstract queue of `Slices`: a state `Serves` an abstract
queue when its scheduling queue holds the same PIDs, the head is the current and
only running process, and the table carries the counts.  One timer tick is one
abstract tick (`procNext_serves`), so the exact schedule of the library holds of
the code.

* `Serves` — the refinement relation between the scheduler and the library's queue.
* `schedule` — a number of ticks, with the PIDs that were charged.
* `RoundStart` — every process at its full count, which is where a round begins and ends.
-/

namespace TrashOS

/-! ## Runs of timer ticks -/

/-- `n` timer ticks; returns the PID that is current at each of them. -/
def schedule : ℕ → PM (List ℕ)
  | 0 => pure []
  | n + 1 => do
      let pid ← getPid
      procNext
      let rest ← schedule n
      pure (pid :: rest)

/-! ## The refinement -/

/-- The process table while the abstract queue `st` is served; `table` gives all
that scheduling does not change. -/
def servedTable (table : ℕ → Proc) (st : Slices ℕ) (p : ℕ) : Proc :=
  { table p with
    execCount := st.left p
    state :=
      if st.queue.head? = some p then .running
      else if p ∈ st.queue then .active
      else (table p).state }

/-- The state `s` serves the abstract queue `st`. -/
structure Serves (table : ℕ → Proc) (s : Sched) (nodes : List ℕ) (st : Slices ℕ) : Prop where
  queue : QueueOf s nodes
  pids : pidsOf s nodes = st.queue
  head : st.queue.head? = some s.pid
  table : s.procTable = servedTable table st
  lists : ∀ p ∈ st.queue, ∃ tables, PageList s p tables

theorem decrement_pos {count : ℕ} (pos : 0 < count) (word : count < pidMax) :
    decrement count = count - 1 := by
  unfold decrement
  unfold pidMax at word ⊢
  omega

/-- **One tick is one abstract tick.** -/
theorem procNext_serves {table : ℕ → Proc} {s : Sched} {nodes : List ℕ} {st : Slices ℕ}
    (serves : Serves table s nodes st) (pos : 0 < st.left s.pid) (word : st.left s.pid < pidMax) :
    ∃ s' nodes', procNext s = .ok ((), s') ∧
      Serves table s' nodes' (st.tick fun p => (table p).priority) := by
  obtain ⟨queue, pids, head, tableEq, lists⟩ := serves
  obtain ⟨p, ps, shape⟩ : ∃ p ps, st.queue = p :: ps := by
    cases order : st.queue with
    | nil => simp [order] at head
    | cons p ps => exact ⟨p, ps, rfl⟩
  obtain rfl : p = s.pid := by simpa [shape] using head
  have count : (s.procTable s.pid).execCount = st.left s.pid := by rw [tableEq]; rfl
  have served : ∀ q, s.procTable q = servedTable table st q := fun q => by rw [tableEq]
  by_cases last : st.left s.pid = 1
  · have done : decrement (s.procTable s.pid).execCount = 0 := by
      rw [count, decrement_pos pos word, last]
    obtain ⟨x, xs, rfl⟩ : ∃ x xs, nodes = x :: xs := by
      cases nodes with
      | nil => exact absurd queue.last (by simp)
      | cons x xs => exact ⟨x, xs, rfl⟩
    have parts : (s.pidNodes x).pid = s.pid ∧ pidsOf s xs = ps := by
      simpa [pidsOf, shape] using pids
    have rotated : pidsOf s (xs ++ [x]) = ps ++ [s.pid] := by
      rw [pidsOf, List.map_append, List.map_singleton, parts.1, ← parts.2]
      rfl
    have ticked : st.tick (fun p => (table p).priority)
        = ⟨ps ++ [s.pid], Function.update st.left s.pid (table s.pid).priority⟩ := by
      simp [Slices.tick, shape, last]
    have member : ∀ q, q ∈ ps ++ [s.pid] ↔ q ∈ st.queue := fun q => by
      rw [shape, List.mem_append, List.mem_singleton, List.mem_cons, or_comm]
    obtain ⟨next, headNext⟩ : ∃ next, (ps ++ [s.pid]).head? = some next := by
      cases ps with
      | nil => exact ⟨_, rfl⟩
      | cons q qs => exact ⟨q, rfl⟩
    have memNext : next ∈ st.queue := (member next).mp (List.mem_of_head? headNext)
    obtain ⟨tables, leaving⟩ := lists s.pid (by simp [shape])
    obtain ⟨tables', entering⟩ := lists next memNext
    obtain ⟨s', run, queue', pids', pid', table', -, -, pageNodes', -, -⟩ :=
      procNext_switch done queue (rotated ▸ headNext) leaving entering
    refine ⟨s', xs ++ [x], run, ⟨queue', ?_, ?_, ?_, fun q memQ => ?_⟩⟩
    · rw [ticked, ← rotated]
      exact List.map_congr_left fun n _ => pids' n
    · rw [ticked, pid']
      exact headNext
    · rw [table', ticked]
      funext q
      have isNext : (ps ++ [s.pid]).head? = some q ↔ q = next := by
        rw [headNext, Option.some_inj, eq_comm]
      have isHead : st.queue.head? = some q ↔ q = s.pid := by
        rw [head, Option.some_inj, eq_comm]
      have current : s.pid ∈ st.queue := by simp [shape]
      unfold switchedTable pausedTable
      simp only [Function.update_apply, servedTable, isNext, member q, served]
      by_cases nextQ : q = next
      · subst nextQ
        by_cases pidQ : q = s.pid
        · simp [pidQ]
        · simp [pidQ]
      · by_cases pidQ : q = s.pid
        · subst pidQ
          simp [nextQ, current]
        · simp [nextQ, pidQ, isHead]
    · rw [ticked] at memQ
      obtain ⟨list, found⟩ := lists q ((member q).mp memQ)
      exact ⟨list,
        found.congr pageNodes' (by rw [table', switchedTable_field unscheduled_pageTables])⟩
  · have more : decrement (s.procTable s.pid).execCount ≠ 0 := by
      rw [count, decrement_pos pos word]
      omega
    have ticked : st.tick (fun p => (table p).priority)
        = ⟨st.queue, Function.update st.left s.pid (st.left s.pid - 1)⟩ := by
      simp [Slices.tick, shape, last]
    refine ⟨_, nodes, procNext_stay more, ⟨⟨queue.list, queue.last⟩, ?_, ?_, ?_, fun q memQ => ?_⟩⟩
    · rw [ticked]
      exact pids
    · rw [ticked]
      exact head
    · rw [ticked]
      funext q
      change chargedTable s q = _
      unfold chargedTable
      rw [Function.update_apply]
      split_ifs with same
      · subst same
        rw [count, decrement_pos pos word, served]
        simp [servedTable]
      · rw [served]
        simp [servedTable, Function.update_of_ne same]
    · rw [ticked] at memQ
      obtain ⟨list, found⟩ := lists q memQ
      exact ⟨list, found.congr rfl (chargedTable_field (fun _ _ => rfl) s q)⟩

/-- **Ticks are abstract ticks**, and the PIDs charged are those of the abstract
trace. -/
theorem schedule_serves {table : ℕ → Proc} {n : ℕ} {s : Sched} {nodes : List ℕ} {st : Slices ℕ}
    (slices : ∀ p ∈ st.queue, 0 < (table p).priority ∧ (table p).priority < pidMax)
    (serves : Serves table s nodes st)
    (counts : ∀ p ∈ st.queue, 0 < st.left p ∧ st.left p < pidMax) :
    ∃ s' nodes', schedule n s = .ok (st.trace (fun p => (table p).priority) n, s') ∧
      Serves table s' nodes' (st.after (fun p => (table p).priority) n) := by
  induction n generalizing s nodes st with
  | zero => exact ⟨s, nodes, rfl, serves⟩
  | succ n ih =>
      have current : s.pid ∈ st.queue := List.mem_of_head? serves.head
      obtain ⟨s₁, nodes₁, run₁, serves₁⟩ :=
        procNext_serves serves (counts _ current).1 (counts _ current).2
      obtain ⟨s₂, nodes₂, run₂, serves₂⟩ :=
        ih (fun p member => slices p (Slices.mem_tick.mp member)) serves₁
          (Slices.left_tick slices counts)
      refine ⟨s₂, nodes₂, ?_, serves₂⟩
      unfold schedule
      rw [Prog.bind_of_ok (m := getPid) (a := s.pid) rfl, Prog.bind_of_ok run₁,
        Prog.bind_of_ok run₂]
      change Except.ok ([s.pid] ++ _, s₂) = .ok (st.queue.head?.toList ++ _, s₂)
      rw [serves.head]
      rfl

/-! ## The schedule -/

/-- A state at the start of a round: distinct PIDs are queued, the head is the
current and running process, the others are active, and every process has its
full count of at least one time slice. -/
structure RoundStart (s : Sched) (nodes : List ℕ) : Prop where
  queue : QueueOf s nodes
  nodup : (pidsOf s nodes).Nodup
  head : (pidsOf s nodes).head? = some s.pid
  running : (s.procTable s.pid).state = .running
  active : ∀ p ∈ pidsOf s nodes, p ≠ s.pid → (s.procTable p).state = .active
  full : ∀ p ∈ pidsOf s nodes, (s.procTable p).execCount = (s.procTable p).priority
  slices : ∀ p ∈ pidsOf s nodes, 1 ≤ (s.procTable p).priority ∧ (s.procTable p).priority < pidMax
  lists : ∀ p ∈ pidsOf s nodes, ∃ tables, PageList s p tables

/-- **Exact weighted round robin.** From the start of a round, any number of rounds of timer ticks
serves the queued processes over and over in queue order, each for exactly its priority of
consecutive ticks, and ends at the start of a round with the same queue, the same current process
and the same process table.  A round starts when the process in front of the queue is at its full
count.  The code counts the ticks down in `exec_count` and loads it with the priority again when
it runs out. -/
theorem roundRobin_exact {s : Sched} {nodes : List ℕ} (start : RoundStart s nodes) (rounds : ℕ) :
    ∃ s' nodes', schedule (rounds * ((pidsOf s nodes).map fun p => (s.procTable p).priority).sum) s
        = .ok ((List.replicate rounds ((pidsOf s nodes).flatMap fun p =>
            List.replicate (s.procTable p).priority p)).flatten, s') ∧
      RoundStart s' nodes' ∧ pidsOf s' nodes' = pidsOf s nodes ∧ s'.pid = s.pid ∧
      s'.procTable = s.procTable := by
  let st : Slices ℕ := ⟨pidsOf s nodes, fun p => (s.procTable p).execCount⟩
  have tableEq : s.procTable = servedTable s.procTable st := by
    funext p
    have isHead : (pidsOf s nodes).head? = some p ↔ p = s.pid := by
      rw [start.head, Option.some_inj, eq_comm]
    simp only [servedTable, st, isHead]
    by_cases current : p = s.pid
    · rw [if_pos current, current, ← start.running]
    · rw [if_neg current]
      by_cases queued : p ∈ pidsOf s nodes
      · rw [if_pos queued, ← start.active p queued current]
      · rw [if_neg queued]
  have serves : Serves s.procTable s nodes st :=
    ⟨start.queue, rfl, start.head, tableEq, start.lists⟩
  have counts : ∀ p ∈ st.queue, 0 < st.left p ∧ st.left p < pidMax := fun p member => by
    have slices := start.slices p member
    rw [← start.full p member] at slices
    exact slices
  obtain ⟨s', nodes', run, serves'⟩ := schedule_serves
    (n := rounds * ((pidsOf s nodes).map fun p => (s.procTable p).priority).sum)
    start.slices serves counts
  obtain ⟨state, served⟩ := Slices.rounds (fun p => (s.procTable p).priority)
    (fun p member => ⟨start.full p member, (start.slices p member).1⟩) rounds
  rw [state] at serves'
  rw [served] at run
  have table' : s'.procTable = s.procTable := serves'.table.trans tableEq.symm
  have pids' : pidsOf s' nodes' = pidsOf s nodes := serves'.pids
  have pid' : s'.pid = s.pid := Option.some_inj.mp (serves'.head.symm.trans start.head)
  refine ⟨s', nodes', run, ⟨serves'.queue, ?_, ?_, ?_, ?_, ?_, ?_, ?_⟩, pids', pid', table'⟩
  · rw [pids']
    exact start.nodup
  · rw [pids', pid']
    exact start.head
  · rw [table', pid']
    exact start.running
  · rw [table', pids', pid']
    exact start.active
  · rw [table', pids']
    exact start.full
  · rw [table', pids']
    exact start.slices
  · rw [pids']
    exact serves'.lists

/-- A queue of the kernel with three slices and a process with two. -/
def sampleRound : Sched :=
  { zeroSched with
    procTable := fun p =>
      if p = 0 then { zeroProc with state := .running, execCount := 3, priority := 3 }
      else if p = 1 then { zeroProc with state := .active, execCount := 2, priority := 2 }
      else zeroProc
    procNum := 1
    procQueueStart := 8
    procQueueEnd := 24
    pidNodes := fun n => if n = 8 then ⟨24, 0⟩ else ⟨0, 1⟩ }

theorem sampleRound_start : RoundStart sampleRound [8, 24] where
  queue := ⟨⟨rfl, by decide, rfl, by decide, rfl⟩, rfl⟩
  nodup := by decide
  head := rfl
  running := rfl
  active := by decide
  full := by decide
  slices := by decide
  lists p member := by
    refine ⟨[], ?_, by decide⟩
    change (sampleRound.procTable p).pageTables = 0
    revert p
    decide

theorem roundRobin_of_sample :
    ∃ s', schedule 10 sampleRound = .ok ([0, 0, 0, 1, 1, 0, 0, 0, 1, 1], s') := by
  obtain ⟨s', -, run, -⟩ := roundRobin_exact sampleRound_start 2
  exact ⟨s', run⟩

end TrashOS
