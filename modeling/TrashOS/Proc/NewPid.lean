import TrashOS.Proc.Queue
import Mathlib.Data.Finset.Card
import Mathlib.Data.Finset.Range

/-!
# Handing out PIDs

`proc_new_pid` has no bound of its own: it counts `next_pid` up, around the end of
`pid_t`, until it meets a dead entry.  `procNewPidReads` is the same search with a
record of the entries it reads, and `procNewPid_erase` says that the record changes
nothing.

`procNewPidReads_run` is the exact outcome of the search, by induction on the cyclic
distance to the entry it stops at.  A registration then marks the entry before the
next search begins (`procRegister_marks`), so over a run of registrations the PIDs
handed out are pairwise distinct and were all dead at the start (`registerRun_hands`).
-/

namespace TrashOS

/-! ## The first entry at or after a position -/

/-- `p` is the first of the `n` entries of a cyclic table, from `start` on, that has
the property. -/
def FirstFrom (n start : ℕ) (P : ℕ → Prop) (p : ℕ) : Prop :=
  ∃ distance < n, p = (start + distance) % n ∧ P p ∧
    ∀ k < distance, ¬ P ((start + k) % n)

/-- Every entry is met on the way around. -/
theorem cyclic_reach {n start p : ℕ} (inside : start < n) (small : p < n) :
    (start + (p + n - start) % n) % n = p := by
  rw [Nat.add_mod_mod, Nat.add_sub_cancel' (by omega), Nat.add_mod_right, Nat.mod_eq_of_lt small]

/-- A table with such an entry has a first one. -/
theorem FirstFrom.exists {n start : ℕ} {P : ℕ → Prop} (inside : start < n)
    (some : ∃ p < n, P p) : ∃ p, FirstFrom n start P p := by
  classical
  obtain ⟨p, small, holds⟩ := some
  have reached : ∃ distance, P ((start + distance) % n) :=
    ⟨(p + n - start) % n, by rwa [cyclic_reach inside small]⟩
  have near : Nat.find reached ≤ (p + n - start) % n :=
    Nat.find_min' reached (by rwa [cyclic_reach inside small])
  have bounded := Nat.mod_lt (p + n - start) (show 0 < n by omega)
  exact ⟨_, Nat.find reached, lt_of_le_of_lt near bounded, rfl, Nat.find_spec reached,
    fun k before => Nat.find_min reached before⟩

theorem FirstFrom.lt {n start p : ℕ} {P : ℕ → Prop} (first : FirstFrom n start P p) : p < n := by
  obtain ⟨distance, bounded, rfl, -, -⟩ := first
  exact Nat.mod_lt _ (Nat.zero_lt_of_lt bounded)

theorem FirstFrom.holds {n start p : ℕ} {P : ℕ → Prop} (first : FirstFrom n start P p) : P p := by
  obtain ⟨-, -, -, holds, -⟩ := first
  exact holds

/-! ## The search -/

/-- A process table entry is dead. -/
def Sched.Dead (s : Sched) (p : ℕ) : Prop := (s.procTable p).state = .dead

instance (s : Sched) (p : ℕ) : Decidable (s.Dead p) :=
  inferInstanceAs (Decidable ((s.procTable p).state = .dead))

/-- `proc_new_pid`, with a record of the entries of `proc_table` it reads. -/
def procNewPidReads : ℕ → Prog (Sched × List ℕ) Stop ℕ
  | 0 => Prog.stop .fuel
  | fuel + 1 => do
      let next ← Prog.read fun s => s.1.nextPid
      let taken ← Prog.read fun s => procPidTaken s.1 next
      Prog.update fun s => ({ s.1 with nextPid := (next + 1) % pidMax }, s.2 ++ [next])
      if taken = true then procNewPidReads fuel else pure next

theorem procNewPidReads_take {fuel : ℕ} {s : Sched} {reads : List ℕ} (dead : s.Dead s.nextPid) :
    procNewPidReads (fuel + 1) (s, reads)
      = .ok (s.nextPid, { s with nextPid := (s.nextPid + 1) % pidMax }, reads ++ [s.nextPid]) := by
  have free : procPidTaken s s.nextPid = false := by simpa [procPidTaken, Sched.Dead] using dead
  unfold procNewPidReads
  rw [Prog.bind_of_ok (a := s.nextPid) rfl, Prog.bind_of_ok (a := false) (by rw [← free]; rfl),
    Prog.bind_of_ok rfl]
  rfl

theorem procNewPidReads_skip {fuel : ℕ} {s : Sched} {reads : List ℕ}
    (taken : ¬ s.Dead s.nextPid) :
    procNewPidReads (fuel + 1) (s, reads)
      = procNewPidReads fuel
          ({ s with nextPid := (s.nextPid + 1) % pidMax }, reads ++ [s.nextPid]) := by
  have busy : procPidTaken s s.nextPid = true := by simpa [procPidTaken, Sched.Dead] using taken
  conv_lhs => unfold procNewPidReads
  rw [Prog.bind_of_ok (a := s.nextPid) rfl, Prog.bind_of_ok (a := true) (by rw [← busy]; rfl),
    Prog.bind_of_ok rfl, if_pos rfl]

/-- Without the record, the search is `proc_new_pid`. -/
theorem procNewPid_erase (fuel : ℕ) (s : Sched) (reads : List ℕ) :
    procNewPid fuel s = (procNewPidReads fuel (s, reads)).map fun r => (r.1, r.2.1) := by
  induction fuel generalizing s reads with
  | zero => rfl
  | succ fuel ih =>
      by_cases here : s.Dead s.nextPid
      · rw [procNewPid_take here, procNewPidReads_take here]
        rfl
      · rw [procNewPid_skip here, procNewPidReads_skip here]
        exact ih _ _

/-- **The search.**  From `next_pid` it passes `distance` entries in use and takes
the one after, which is dead; these are all the entries it reads. -/
theorem procNewPidReads_run {distance fuel : ℕ} {s : Sched} {reads : List ℕ}
    (enough : distance < fuel) (word : s.nextPid < pidMax)
    (dead : s.Dead ((s.nextPid + distance) % pidMax))
    (taken : ∀ k < distance, ¬ s.Dead ((s.nextPid + k) % pidMax)) :
    procNewPidReads fuel (s, reads)
      = .ok ((s.nextPid + distance) % pidMax,
          { s with nextPid := ((s.nextPid + distance) % pidMax + 1) % pidMax },
          reads ++ (List.range (distance + 1)).map fun k => (s.nextPid + k) % pidMax) := by
  have here : (s.nextPid + 0) % pidMax = s.nextPid := Nat.mod_eq_of_lt word
  obtain ⟨fuel, rfl⟩ : ∃ k, fuel = k + 1 := ⟨fuel - 1, by omega⟩
  induction distance generalizing fuel s reads with
  | zero =>
      rw [here] at dead ⊢
      rw [procNewPidReads_take dead]
      simp [Nat.mod_eq_of_lt word]
  | succ distance ih =>
      -- the entries seen from the next position are those seen from here, one further
      have shift : ∀ k, ((s.nextPid + 1) % pidMax + k) % pidMax
          = (s.nextPid + (k + 1)) % pidMax := by
        intro k
        rw [Nat.mod_add_mod, Nat.add_assoc, Nat.add_comm 1 k]
      have next : (s.nextPid + 1) % pidMax < pidMax := Nat.mod_lt _ (by decide)
      obtain ⟨fuel, rfl⟩ : ∃ k, fuel = k + 1 := ⟨fuel - 1, by omega⟩
      have first : ¬ s.Dead s.nextPid := by
        have := taken 0 (Nat.succ_pos _)
        rwa [here] at this
      have rest : procNewPidReads (fuel + 1)
          ({ s with nextPid := (s.nextPid + 1) % pidMax }, reads ++ [s.nextPid]) = _ :=
        ih (s := { s with nextPid := (s.nextPid + 1) % pidMax }) next (by rw [shift]; exact dead)
          (fun k before => by rw [shift]; exact taken (k + 1) (by omega))
          (Nat.mod_eq_of_lt next) fuel (by omega)
      have path : (List.range (distance + 1 + 1)).map (fun k => (s.nextPid + k) % pidMax)
          = s.nextPid ::
            (List.range (distance + 1)).map fun k => (s.nextPid + (k + 1)) % pidMax := by
        rw [List.range_succ_eq_map, List.map_cons, here, List.map_map]
        rfl
      rw [procNewPidReads_skip first, rest, path]
      simp only [shift, List.append_assoc, List.singleton_append]

/-- **`proc_new_pid` takes the first dead PID from `next_pid` on**, and reads only
entries of the table on the way. -/
theorem procNewPid_first {s : Sched} (word : s.nextPid < pidMax)
    (remains : ∃ p < pidMax, s.Dead p) :
    ∃ pid reads, FirstFrom pidMax s.nextPid s.Dead pid ∧
      procNewPidReads (pidMax + 1) (s, [])
        = .ok (pid, { s with nextPid := (pid + 1) % pidMax }, reads) ∧
      ∀ p ∈ reads, p < pidMax := by
  obtain ⟨pid, distance, bounded, rfl, dead, taken⟩ := FirstFrom.exists word remains
  refine ⟨_, _, ⟨distance, bounded, rfl, dead, taken⟩,
    procNewPidReads_run (by omega) word dead taken, fun p member => ?_⟩
  obtain ⟨k, -, rfl⟩ := List.mem_map.mp member
  exact Nat.mod_lt _ (by decide)

/-! ## A registration marks the entry -/

/-- Adding to the queue always returns, and leaves the process table and the
position of the search alone. -/
theorem procQueueAdd_returns (node pid : ℕ) (s : Sched) :
    ∃ s', procQueueAdd node pid s = .ok ((), s') ∧ s'.procTable = s.procTable ∧
      s'.nextPid = s.nextPid := by
  unfold procQueueAdd procQueueLink
  by_cases empty : s.procQueueEnd = 0
  · rw [Prog.bind_of_ok (a := ())
      (by rw [Prog.bind_of_ok (a := s.procQueueEnd) rfl, if_neg (by simpa using empty)]; rfl)]
    exact ⟨_, rfl, rfl, rfl⟩
  · rw [Prog.bind_of_ok (a := ())
      (by rw [Prog.bind_of_ok (a := s.procQueueEnd) rfl, if_pos empty]; rfl)]
    exact ⟨_, rfl, rfl, rfl⟩

/-- A registration takes the PID the search finds and makes its entry active. -/
theorem procRegister_marks (memory : RegisterMemory) (entryPoint priority : ℕ) {s : Sched}
    {pid : ℕ} (chosen : procNewPid (pidMax + 1) s
      = .ok (pid, { s with nextPid := (pid + 1) % pidMax })) :
    ∃ s', procRegister memory entryPoint priority s = .ok (pid, s') ∧
      s'.nextPid = (pid + 1) % pidMax ∧ (s'.procTable pid).state = .active ∧
      ∀ p, p ≠ pid → (s'.procTable p).state = (s.procTable p).state := by
  unfold procRegister
  rw [Prog.bind_of_ok chosen, Prog.bind_of_ok rfl, Prog.bind_of_ok rfl, Prog.bind_of_ok rfl,
    Prog.bind_of_ok rfl]
  obtain ⟨s', add, table, next⟩ := procQueueAdd_returns memory.queueNode pid _
  rw [Prog.bind_of_ok add]
  refine ⟨s', rfl, next, ?_, fun p differs => ?_⟩
  · simp [table]
  · simp [table, Function.update_of_ne differs]

/-! ## Runs of registrations -/

/-- The arguments of a call of `proc_register`, with what the allocators return
during the call. -/
structure Registration where
  memory : RegisterMemory
  entryPoint : ℕ
  priority : ℕ

/-- Calls of `proc_register` one after the other, with the PIDs they return. -/
def registerRun : List Registration → PM (List ℕ)
  | [] => pure []
  | call :: calls => do
      let pid ← procRegister call.memory call.entryPoint call.priority
      let pids ← registerRun calls
      pure (pid :: pids)

/-- The PIDs no process has. -/
def deadPids (s : Sched) : Finset ℕ := (Finset.range pidMax).filter s.Dead

theorem mem_deadPids {s : Sched} {p : ℕ} : p ∈ deadPids s ↔ p < pidMax ∧ s.Dead p := by
  rw [deadPids, Finset.mem_filter, Finset.mem_range]

/-- The PIDs handed out by a run from `s` to `s'`: one for each call, pairwise
distinct, all dead at the start, and in use at the end like those in use before. -/
structure HandsOut (s s' : Sched) (calls : ℕ) (pids : List ℕ) : Prop where
  length : pids.length = calls
  nodup : pids.Nodup
  word : ∀ p ∈ pids, p < pidMax
  dead : ∀ p ∈ pids, s.Dead p
  live : ∀ p, ¬ s'.Dead p ↔ ¬ s.Dead p ∨ p ∈ pids

/-- **A run of registrations** that does not outnumber the dead PIDs returns, and
hands each PID out at most once.  The induction is on the calls; each one takes its
PID away from the dead ones. -/
theorem registerRun_hands (calls : List Registration) {s : Sched} (word : s.nextPid < pidMax)
    (enough : calls.length ≤ (deadPids s).card) :
    ∃ pids s', registerRun calls s = .ok (pids, s') ∧ HandsOut s s' calls.length pids := by
  induction calls generalizing s with
  | nil => exact ⟨[], s, rfl, rfl, List.nodup_nil, by simp, by simp, by simp⟩
  | cons call calls ih =>
      have remains : ∃ p < pidMax, s.Dead p := by
        obtain ⟨p, member⟩ : (deadPids s).Nonempty := by
          rw [← Finset.card_pos]
          exact lt_of_lt_of_le (Nat.succ_pos _) enough
        exact ⟨p, mem_deadPids.mp member⟩
      obtain ⟨pid, reads, first, search, -⟩ := procNewPid_first word remains
      obtain ⟨s₁, register, next, active, others⟩ :=
        procRegister_marks call.memory call.entryPoint call.priority
          ((procNewPid_erase _ s []).trans (congrArg _ search))
      have live₁ : ∀ p, s₁.Dead p ↔ s.Dead p ∧ p ≠ pid := by
        intro p
        by_cases same : p = pid
        · simp [same, Sched.Dead, active]
        · simp [same, Sched.Dead, others p same]
      have fewer : deadPids s₁ = (deadPids s).erase pid := by
        ext p
        rw [Finset.mem_erase, mem_deadPids, mem_deadPids, live₁, ← and_assoc, and_comm]
      have enough₁ : calls.length ≤ (deadPids s₁).card := by
        rw [fewer, Finset.card_erase_of_mem (mem_deadPids.mpr ⟨first.lt, first.holds⟩)]
        exact Nat.le_sub_one_of_lt enough
      obtain ⟨pids, s', run, hands⟩ := ih (by rw [next]; exact Nat.mod_lt _ (by decide)) enough₁
      refine ⟨pid :: pids, s', ?_, ?_⟩
      · unfold registerRun
        rw [Prog.bind_of_ok register, Prog.bind_of_ok run]
        rfl
      · have dead : ∀ p ∈ pids, s.Dead p ∧ p ≠ pid := fun p member =>
          (live₁ p).mp (hands.dead p member)
        refine ⟨congrArg _ hands.length,
          List.nodup_cons.mpr ⟨fun member => (dead pid member).2 rfl, hands.nodup⟩, ?_, ?_, ?_⟩
        · exact List.forall_mem_cons.mpr ⟨first.lt, hands.word⟩
        · exact List.forall_mem_cons.mpr ⟨first.holds, fun p member => (dead p member).1⟩
        · intro p
          rw [hands.live, live₁, List.mem_cons, not_and_or, not_not, or_assoc]

/-- **PID allocation.**  Whatever the table holds, if an entry is dead,
`proc_new_pid` returns the first dead PID from `next_pid` on, around the end of
`pid_t`, and reads entries of the table only.  In a run of registrations that begins
with PID 0 taken and does not outnumber the dead entries, every call returns, with a
PID that no process has: neither one live at the start nor one handed out before. -/
theorem procNewPid_allocates (s : Sched) (word : s.nextPid < pidMax) :
    ((∃ p < pidMax, s.Dead p) → ∃ pid reads,
      procNewPidReads (pidMax + 1) (s, [])
        = .ok (pid, { s with nextPid := (pid + 1) % pidMax }, reads) ∧
      procNewPid (pidMax + 1) s = .ok (pid, { s with nextPid := (pid + 1) % pidMax }) ∧
      (∀ p ∈ reads, p < pidMax) ∧ FirstFrom pidMax s.nextPid s.Dead pid) ∧
    ∀ calls : List Registration, ¬ s.Dead 0 → calls.length ≤ (deadPids s).card →
      ∃ pids s', registerRun calls s = .ok (pids, s') ∧ HandsOut s s' calls.length pids ∧
        0 ∉ pids := by
  refine ⟨fun remains => ?_, fun calls kernel enough => ?_⟩
  · obtain ⟨pid, reads, first, search, inside⟩ := procNewPid_first word remains
    exact ⟨pid, reads, search, (procNewPid_erase _ s []).trans (congrArg _ search), inside, first⟩
  · obtain ⟨pids, s', run, hands⟩ := registerRun_hands calls word enough
    exact ⟨pids, s', run, hands, fun handed => kernel (hands.dead 0 handed)⟩

/-- A table with PIDs 0 and 65535 taken, the search being at the latter. -/
def wrapSched : Sched :=
  { zeroSched with
    nextPid := 65535
    procTable := fun p =>
      if p = 0 ∨ p = 65535 then { zeroProc with state := .running } else zeroProc }

theorem procNewPid_allocates_wrap :
    (∃ pid reads, procNewPidReads (pidMax + 1) (wrapSched, [])
        = .ok (pid, { wrapSched with nextPid := (pid + 1) % pidMax }, reads) ∧
      procNewPid (pidMax + 1) wrapSched
        = .ok (pid, { wrapSched with nextPid := (pid + 1) % pidMax }) ∧
      (∀ p ∈ reads, p < pidMax) ∧ FirstFrom pidMax 65535 wrapSched.Dead pid) ∧
    ∃ pids s', registerRun [⟨sampleInitMemory.memory1, 0, 30⟩] wrapSched = .ok (pids, s') ∧
      HandsOut wrapSched s' 1 pids ∧ 0 ∉ pids := by
  have dead : wrapSched.Dead 1 := by decide
  obtain ⟨search, run⟩ := procNewPid_allocates wrapSched (by decide)
  refine ⟨search ⟨1, by decide, dead⟩, run [⟨sampleInitMemory.memory1, 0, 30⟩] (by decide) ?_⟩
  exact Finset.card_pos.mpr ⟨1, mem_deadPids.mpr ⟨by decide, dead⟩⟩

end TrashOS
