import TrashOS.Proc.Init
import TrashOS.Proc.RoundRobin

/-!
# How long a process waits

`proc_next` counts `exec_count` down before it compares it with zero, so a count of zero
stands for the longest slice there is, of 65536 ticks (`slices`).  With that reading every
tick is one tick of the abstract queue of `Slices` and every registration one `join`,
whatever the priorities are (`procNext_slices`, `Registered.slices`).

So the wait of a process is known when it starts: the slices of those in front of it.
Neither the ticks of others nor processes that are registered meanwhile change it
(`served_of_run`).
-/

namespace TrashOS

/-- The ticks a process with a count of `count` is charged for before it is taken off. -/
def slices (count : ℕ) : ℕ := if count = 0 then pidMax else count

/-- The queue with the slices everybody has left. -/
def slicesOf (s : Sched) (nodes : List ℕ) : Slices ℕ :=
  ⟨pidsOf s nodes, fun p => slices (s.procTable p).execCount⟩

/-- The slices of a process that is queued anew. -/
def weightOf (s : Sched) (p : ℕ) : ℕ := slices (s.procTable p).priority

section Slices

variable {count : ℕ}

theorem slices_pos (count : ℕ) : 0 < slices count := by
  unfold slices pidMax
  split_ifs <;> omega

theorem decrement_eq_zero (word : count < pidMax) : decrement count = 0 ↔ slices count = 1 := by
  unfold decrement slices pidMax at *
  split_ifs <;> omega

theorem slices_decrement (word : count < pidMax) (more : decrement count ≠ 0) :
    slices (decrement count) = slices count - 1 := by
  unfold decrement slices pidMax at *
  split_ifs <;> omega

end Slices

/-- The counters of every process are 16-bit, and nobody has more slices left than it
gets anew. -/
structure CountsWord (s : Sched) : Prop where
  left : ∀ p, (s.procTable p).execCount < pidMax
  anew : ∀ p, (s.procTable p).priority < pidMax
  le : ∀ p, slices (s.procTable p).execCount ≤ weightOf s p

section Steps

variable {s s' : Sched} {nodes xs : List ℕ} {x next : ℕ} {memory : RegisterMemory}
  {entryPoint priority pid : ℕ}

theorem switchedTable_counts (s : Sched) (next p : ℕ) :
    (switchedTable s next p).execCount =
        Function.update (fun q => (s.procTable q).execCount) s.pid (s.procTable s.pid).priority p ∧
      (switchedTable s next p).priority = (s.procTable p).priority := by
  have paused : ∀ q, (pausedTable s q).execCount =
        Function.update (fun q => (s.procTable q).execCount) s.pid (s.procTable s.pid).priority q ∧
      (pausedTable s q).priority = (s.procTable q).priority := by
    intro q
    unfold pausedTable
    by_cases same : q = s.pid
    · subst same
      rw [Function.update_self, Function.update_self]
      exact ⟨rfl, rfl⟩
    · rw [Function.update_of_ne same, Function.update_of_ne same]
      exact ⟨rfl, rfl⟩
  unfold switchedTable
  by_cases same : p = next
  · subst same
    rw [Function.update_self]
    exact paused p
  · rw [Function.update_of_ne same]
    exact paused p

theorem chargedTable_counts (s : Sched) (p : ℕ) :
    (chargedTable s p).execCount =
        Function.update (fun q => (s.procTable q).execCount) s.pid
          (decrement (s.procTable s.pid).execCount) p ∧
      (chargedTable s p).priority = (s.procTable p).priority := by
  unfold chargedTable
  by_cases same : p = s.pid
  · subst same
    rw [Function.update_self, Function.update_self]
    exact ⟨rfl, rfl⟩
  · rw [Function.update_of_ne same, Function.update_of_ne same]
    exact ⟨rfl, rfl⟩

/-- What a tick leaves of the queue and of the counters. -/
structure SlicesTicked (s s' : Sched) (nodes nodes' : List ℕ) : Prop where
  words : CountsWord s'
  slices : slicesOf s' nodes' = (slicesOf s nodes).tick (weightOf s)
  weight : weightOf s' = weightOf s

/-- The last tick of a slice. -/
theorem slicesTicked_switch (first : (s.pidNodes x).pid = s.pid) (words : CountsWord s)
    (done : decrement (s.procTable s.pid).execCount = 0)
    (pids : pidsOf s' (xs ++ [x]) = pidsOf s (xs ++ [x]))
    (table : s'.procTable = switchedTable s next) : SlicesTicked s s' (x :: xs) (xs ++ [x]) := by
  have counts := switchedTable_counts s next
  have one : slices (s.procTable s.pid).execCount = 1 :=
    (decrement_eq_zero (words.left s.pid)).mp done
  have weight : weightOf s' = weightOf s := funext fun p => by
    unfold weightOf
    rw [table, (counts p).2]
  refine ⟨⟨fun p => ?_, fun p => ?_, fun p => ?_⟩, ?_, weight⟩
  · rw [table, (counts p).1, Function.update_apply]
    split_ifs
    · exact words.anew s.pid
    · exact words.left p
  · rw [table, (counts p).2]
    exact words.anew p
  · rw [weight, table, (counts p).1, Function.update_apply]
    split_ifs with same
    · exact same ▸ le_rfl
    · exact words.le p
  · have left : (fun p => slices (s'.procTable p).execCount) =
        Function.update (fun p => slices (s.procTable p).execCount) s.pid
          (weightOf s s.pid) := by
      funext p
      rw [table, (counts p).1, Function.update_apply, Function.update_apply]
      split_ifs <;> rfl
    unfold slicesOf Slices.tick
    rw [pids, left]
    simp only [pidsOf, List.map_cons, List.map_append, List.map_nil, first, if_pos one]

/-- A tick within a slice. -/
theorem slicesTicked_stay (first : (s.pidNodes x).pid = s.pid) (words : CountsWord s)
    (more : decrement (s.procTable s.pid).execCount ≠ 0) :
    SlicesTicked s { s with procTable := chargedTable s } (x :: xs) (x :: xs) := by
  have counts := chargedTable_counts s
  have word := words.left s.pid
  have weight : weightOf { s with procTable := chargedTable s } = weightOf s :=
    funext fun p => congrArg slices (counts p).2
  refine ⟨⟨fun p => ?_, fun p => ?_, fun p => ?_⟩, ?_, weight⟩
  · change (chargedTable s p).execCount < pidMax
    rw [(counts p).1, Function.update_apply]
    split_ifs
    · exact Nat.mod_lt _ (by decide)
    · exact words.left p
  · change (chargedTable s p).priority < pidMax
    rw [(counts p).2]
    exact words.anew p
  · rw [weight]
    change slices (chargedTable s p).execCount ≤ _
    rw [(counts p).1, Function.update_apply]
    split_ifs with same
    · rw [slices_decrement word more, same]
      exact (Nat.sub_le _ 1).trans (words.le s.pid)
    · exact words.le p
  · have left : (fun p => slices (chargedTable s p).execCount) =
        Function.update (fun p => slices (s.procTable p).execCount) s.pid
          (slices (s.procTable s.pid).execCount - 1) := by
      funext p
      rw [(counts p).1, Function.update_apply, Function.update_apply]
      split_ifs
      · exact slices_decrement word more
      · rfl
    have notOne : slices (s.procTable s.pid).execCount ≠ 1 := fun one =>
      more ((decrement_eq_zero word).mpr one)
    unfold slicesOf Slices.tick
    simp only [pidsOf, List.map_cons, first, if_neg notOne]
    exact congrArg _ left

/-- **One timer tick is one tick of the abstract queue.** -/
theorem procNext_slices (inv : SchedInv s nodes) (base : SchedBase s nodes) (words : CountsWord s) :
    ∃ s' nodes', procNext s = .ok ((), s') ∧ SchedInv s' nodes' ∧ SchedBase s' nodes' ∧
      SlicesTicked s s' nodes nodes' := by
  obtain ⟨s', nodes', run, -, inv', base'⟩ := procNext_keeps inv base
  refine ⟨s', nodes', run, inv', base', ?_⟩
  rcases procNext_cases inv base run with ⟨more, rfl⟩ |
    ⟨done, x, xs, next, rfl, queue, pids, table⟩
  · obtain rfl := inv.queue.list.unique inv'.queue.list
    cases nodes with
    | nil => exact absurd inv.queue.last (by simp)
    | cons x xs =>
        have first : (s.pidNodes x).pid = s.pid := by simpa [pidsOf] using inv.head
        exact slicesTicked_stay first words more
  · obtain rfl := inv'.queue.list.unique queue.list
    have first : (s.pidNodes x).pid = s.pid := by simpa [pidsOf] using inv.head
    exact slicesTicked_switch first words done (List.map_congr_left fun n _ => pids n) table

theorem Registered.counts (reg : Registered s s' nodes memory entryPoint priority pid) :
    (s'.procTable pid).execCount = priority ∧ (s'.procTable pid).priority = priority := by
  rw [reg.table, registeredTable, Function.update_self]
  exact ⟨rfl, rfl⟩

/-- **A registration joins the abstract queue.** -/
theorem Registered.slices (reg : Registered s s' nodes memory entryPoint priority pid)
    (words : CountsWord s) (word : priority < pidMax) :
    CountsWord s' ∧
      slicesOf s' (nodes ++ [memory.queueNode]) =
        (slicesOf s nodes).join pid (TrashOS.slices priority) ∧
      weightOf s' = Function.update (weightOf s) pid (TrashOS.slices priority) := by
  have self := reg.counts
  have other : ∀ p, p ≠ pid → s'.procTable p = s.procTable p := fun p differs => by
    rw [reg.table]
    exact Function.update_of_ne differs _ _
  have weight : weightOf s' = Function.update (weightOf s) pid (TrashOS.slices priority) := by
    funext p
    unfold weightOf
    by_cases same : p = pid
    · rw [same, self.2, Function.update_self]
    · rw [other p same, Function.update_of_ne same]
  refine ⟨⟨fun p => ?_, fun p => ?_, fun p => ?_⟩, ?_, weight⟩
  · by_cases same : p = pid
    · rwa [same, self.1]
    · rw [other p same]
      exact words.left p
  · by_cases same : p = pid
    · rwa [same, self.2]
    · rw [other p same]
      exact words.anew p
  · rw [weight]
    by_cases same : p = pid
    · rw [same, self.1, Function.update_self]
    · rw [other p same, Function.update_of_ne same]
      exact words.le p
  · unfold slicesOf Slices.join
    rw [reg.pids]
    refine congrArg _ (funext fun p => ?_)
    by_cases same : p = pid
    · rw [same, self.1, Function.update_self]
    · rw [other p same, Function.update_of_ne same]

theorem SchedInv.fair (inv : SchedInv s nodes) : (slicesOf s nodes).Fair :=
  ⟨inv.nodup, fun p _ => slices_pos (s.procTable p).execCount⟩

end Steps

/-! ## Runs -/

/-- A run with `ticks` timer ticks, in which processes are registered at any time. -/
inductive SchedRun (s : Sched) : ℕ → Sched → Prop
  | refl : SchedRun s 0 s
  | tick {ticks : ℕ} {s₁ s₂ : Sched} (run : SchedRun s ticks s₁)
      (returned : procNext s₁ = .ok ((), s₂)) : SchedRun s (ticks + 1) s₂
  | register {ticks : ℕ} {s₁ s₂ : Sched} {memory : RegisterMemory} {entryPoint priority pid : ℕ}
      (run : SchedRun s ticks s₁) (fresh : Fresh s₁ memory)
      (remains : ∃ p < pidMax, (s₁.procTable p).state = .dead) (word : priority < pidMax)
      (returned : procRegister memory entryPoint priority s₁ = .ok (pid, s₂)) :
      SchedRun s ticks s₂

section Runs

variable {s s' : Sched} {nodes : List ℕ} {ticks : ℕ}

/-- **Every run is a run of the abstract queue.** -/
theorem SchedRun.turns (inv : SchedInv s nodes) (base : SchedBase s nodes) (words : CountsWord s)
    (run : SchedRun s ticks s') :
    ∃ nodes', SchedInv s' nodes' ∧ SchedBase s' nodes' ∧ CountsWord s' ∧
      (slicesOf s nodes).Turns (weightOf s) ticks (slicesOf s' nodes') (weightOf s') := by
  induction run with
  | refl => exact ⟨nodes, inv, base, words, .refl⟩
  | tick run returned ih =>
      obtain ⟨nodes₁, inv₁, base₁, words₁, turns⟩ := ih
      obtain ⟨s', nodes', run', inv', base', ticked⟩ := procNext_slices inv₁ base₁ words₁
      cases run'.symm.trans returned
      refine ⟨nodes', inv', base', ticked.words, ?_⟩
      rw [ticked.slices, ticked.weight]
      exact turns.tick
  | @register ticks s₁ s₂ memory entryPoint priority pid run fresh remains word returned ih =>
      obtain ⟨nodes₁, inv₁, base₁, words₁, turns⟩ := ih
      obtain ⟨pid', s', run', reg, inv', base'⟩ :=
        procRegister_keeps entryPoint priority inv₁ base₁ fresh remains
      cases run'.symm.trans returned
      obtain ⟨words', slices', weight'⟩ := reg.slices words₁ word
      refine ⟨_, inv', base', words', ?_⟩
      rw [slices', weight']
      exact turns.join (fun queued => (inv₁.registered pid).mp queued reg.dead) (slices_pos _)

/-- **When a process is current**, from a state of the scheduler on. -/
theorem SchedRun.pid_iff (inv : SchedInv s nodes) (base : SchedBase s nodes) (words : CountsWord s)
    (run : SchedRun s ticks s') {p : ℕ} (queued : p ∈ pidsOf s nodes)
    (soon : ticks < (slicesOf s nodes).wait p + slices (s.procTable p).execCount) :
    s'.pid = p ↔ (slicesOf s nodes).wait p ≤ ticks := by
  obtain ⟨nodes', inv', -, -, turns⟩ := run.turns inv base words
  have served := turns.served_iff inv.fair (fun q _ => slices_pos (s.procTable q).priority) queued
    soon
  rw [← served, ← Option.some_inj, ← inv'.head]
  rfl

/-- The slices in front of a process and its own are no more than one for everybody. -/
theorem CountsWord.bound (words : CountsWord s) {p : ℕ} (queued : p ∈ pidsOf s nodes) :
    (slicesOf s nodes).wait p + slices (s.procTable p).execCount ≤
      ((pidsOf s nodes).map (weightOf s)).sum := by
  have all : ∀ qs : List ℕ, (qs.map fun q => slices (s.procTable q).execCount).sum ≤
      (qs.map (weightOf s)).sum := by
    intro qs
    induction qs with
    | nil => exact le_rfl
    | cons q qs ih =>
        rw [List.map_cons, List.map_cons, List.sum_cons, List.sum_cons]
        exact Nat.add_le_add (words.le q) ih
  have place : (slicesOf s nodes).wait _ + (slicesOf s nodes).left _ ≤ _ :=
    Slices.wait_add_left_le queued
  exact place.trans (all _)

/-- The counters after `proc_init`. -/
theorem procInit_words {s₀ : Sched} {memory : InitMemory} (zeroed : Zeroed s₀)
    (fresh : InitFresh memory) (init : procInit memory s₀ = .ok ((), s)) : CountsWord s := by
  obtain ⟨p₁, p₂, p₃, k, s₁, s₂, queued, reg₁, reg₂, reg₃⟩ :=
    procInit_returned ⟨zeroed.num, zeroed.pid, zeroed.next⟩ fresh init
  have words : CountsWord k := by
    have entry : ∀ p, (k.procTable p).execCount ≤ 1 ∧
        ((k.procTable p).execCount = 0 → (k.procTable p).priority = 0) ∧
        (k.procTable p).priority ≤ 10 := by
      intro p
      rw [queued.table, zeroed.table, Function.update_apply]
      split_ifs <;> simp [kernelEntry, zeroProc]
    refine ⟨fun p => (entry p).1.trans_lt (by decide), fun p => (entry p).2.2.trans_lt (by decide),
      fun p => ?_⟩
    obtain ⟨count, zero, -⟩ := entry p
    by_cases none : (k.procTable p).execCount = 0
    · unfold weightOf
      rw [none, zero none]
    · have one : (k.procTable p).execCount = 1 := by omega
      rw [one]
      exact slices_pos _
  have words₁ := (reg₁.slices words (by decide)).1
  have words₂ := (reg₂.slices words₁ (by decide)).1
  exact (reg₃.slices words₂ (by decide)).1

/-- **How long a process waits.** In every state that the scheduler reaches from `proc_init`, each
queued process has a time at which it becomes current, and how long it then stays: after the
slices of those in front of it, for its own slices, in every run from there.  Processes that are
registered meanwhile, of any priority, change neither, ticks always return, and the wait is at
most one slice of everybody who is queued.  The wait is counted in ticks and read off the state:
it does not depend on the run that follows, which is what makes it a promise. -/
theorem served_of_run {s₀ s₁ : Sched} {memory : InitMemory} (zeroed : Zeroed s₀)
    (fresh : InitFresh memory) (init : procInit memory s₀ = .ok ((), s₁)) {n : ℕ}
    (reach : SchedRun s₁ n s) :
    ∃ nodes, QueueOf s nodes ∧ ∀ p ∈ pidsOf s nodes,
      (slicesOf s nodes).wait p + slices (s.procTable p).execCount ≤
          ((pidsOf s nodes).map (weightOf s)).sum ∧
        ∀ ticks s', SchedRun s ticks s' → (∃ s'', procNext s' = .ok ((), s'')) ∧
          (ticks < (slicesOf s nodes).wait p + slices (s.procTable p).execCount →
            (s'.pid = p ↔ (slicesOf s nodes).wait p ≤ ticks)) := by
  obtain ⟨t, nodes₁, run, booted, -⟩ := procInit_booted zeroed fresh
  cases run.symm.trans init
  obtain ⟨nodes, inv, base, words, -⟩ :=
    reach.turns booted.inv booted.base (procInit_words zeroed fresh init)
  refine ⟨nodes, inv.queue, fun p queued => ⟨words.bound queued, fun ticks s' later =>
    ⟨?_, later.pid_iff inv base words queued⟩⟩⟩
  obtain ⟨nodes', inv', base', -⟩ := later.turns inv base words
  obtain ⟨s'', nodes'', run, -⟩ := procNext_keeps inv' base'
  exact ⟨s'', run⟩

/-- The wait of the processes of `proc_init`. -/
theorem served_of_sample_init :
    ∃ s, procInit sampleInitMemory zeroSched = .ok ((), s) ∧ ∃ nodes, QueueOf s nodes ∧
      ∀ p ∈ pidsOf s nodes, ∃ wait, ∀ ticks s', SchedRun s ticks s' →
        (∃ s'', procNext s' = .ok ((), s'')) ∧
          (ticks < wait + slices (s.procTable p).execCount → (s'.pid = p ↔ wait ≤ ticks)) := by
  have zeroed : Zeroed zeroSched := ⟨rfl, rfl, rfl, rfl⟩
  have fresh : InitFresh sampleInitMemory := ⟨by decide, by decide⟩
  obtain ⟨s, nodes, init, -, -⟩ := procInit_booted zeroed fresh
  obtain ⟨nodes, queue, served⟩ := served_of_run zeroed fresh init .refl
  exact ⟨s, init, nodes, queue, fun p queued => ⟨_, (served p queued).2⟩⟩

/-- Ticks are ticks of the abstract queue, and the PIDs charged are those of its trace. -/
theorem schedule_slices (inv : SchedInv s nodes) (base : SchedBase s nodes) (words : CountsWord s)
    (n : ℕ) :
    ∃ s' nodes', schedule n s = .ok ((slicesOf s nodes).trace (weightOf s) n, s') ∧
      SchedInv s' nodes' ∧ slicesOf s' nodes' = (slicesOf s nodes).after (weightOf s) n := by
  induction n generalizing s nodes with
  | zero => exact ⟨s, nodes, rfl, inv, rfl⟩
  | succ n ih =>
      obtain ⟨s₁, nodes₁, run, inv₁, base₁, ticked⟩ := procNext_slices inv base words
      obtain ⟨s', nodes', rest, inv', final⟩ := ih inv₁ base₁ ticked.words
      rw [ticked.slices, ticked.weight] at rest final
      refine ⟨s', nodes', ?_, inv', final⟩
      have head : (slicesOf s nodes).queue.head? = some s.pid := inv.head
      unfold schedule Slices.trace
      rw [Prog.bind_of_ok (m := getPid) rfl, Prog.bind_of_ok run, Prog.bind_of_ok rest, head]
      rfl

/-- A round of the processes of `proc_init`. -/
def bootRound : List ℕ :=
  [1, 2, 3, 0].flatMap fun p => List.replicate (if p = 1 then 30 else 10) p

/-- The queue of `proc_init`. -/
theorem procInit_slices {s₀ : Sched} {memory : InitMemory} (zeroed : Zeroed s₀)
    (fresh : InitFresh memory) (init : procInit memory s₀ = .ok ((), s)) :
    ∃ nodes, SchedInv s nodes ∧ SchedBase s nodes ∧ (slicesOf s nodes).queue = [0, 1, 2, 3] ∧
      (slicesOf s nodes).left 0 = 1 ∧
      ∀ p ∈ [1, 2, 3, 0], weightOf s p = (if p = 1 then 30 else 10) ∧
        (p ≠ 0 → (slicesOf s nodes).left p = weightOf s p) := by
  have boot : AtBoot s₀ := ⟨zeroed.num, zeroed.pid, zeroed.next⟩
  obtain ⟨t, nodes, run, booted, -⟩ := procInit_booted zeroed fresh
  cases run.symm.trans init
  obtain ⟨t, run', known⟩ := procInit_clean boot fresh fun p _ _ => by rw [zeroed.table]; rfl
  cases run'.symm.trans init
  have result := known.result fresh
  obtain ⟨k, s₁, s₂, queued, reg₁, reg₂, reg₃⟩ := known
  obtain rfl := booted.inv.queue.list.unique reg₃.queue.list
  have first := reg₁.counts
  rw [← reg₂.table_of_ne (by decide), ← reg₃.table_of_ne (by decide)] at first
  have second := reg₂.counts
  rw [← reg₃.table_of_ne (by decide)] at second
  have third := reg₃.counts
  refine ⟨_, booted.inv, booted.base, result.pids, ?_, fun p member => ?_⟩
  · change slices (s.procTable 0).execCount = 1
    rw [result.kernel]
    rfl
  · change slices (s.procTable p).priority = _ ∧
      (p ≠ 0 → slices (s.procTable p).execCount = slices (s.procTable p).priority)
    simp only [List.mem_cons, List.not_mem_nil, or_false] at member
    rcases member with rfl | rfl | rfl | rfl
    · rw [first.1, first.2]
      exact ⟨rfl, fun _ => rfl⟩
    · rw [second.1, second.2]
      exact ⟨rfl, fun _ => rfl⟩
    · rw [third.1, third.2]
      exact ⟨rfl, fun _ => rfl⟩
    · rw [result.kernel]
      exact ⟨rfl, fun some => absurd rfl some⟩

/-- **The schedule of the kernel as it boots.**  The kernel is charged for the first tick;
from then on the three processes and the kernel take turns of 30, 10, 10 and 10 ticks for
ever, and `proc_num` stays 3, so the loop of `proc_loop` does not end. -/
theorem bootSchedule_exact {s₀ : Sched} {memory : InitMemory} (zeroed : Zeroed s₀)
    (fresh : InitFresh memory) (init : procInit memory s₀ = .ok ((), s)) (rounds : ℕ) :
    ∃ s', schedule (1 + rounds * 60) s =
        .ok (0 :: (List.replicate rounds bootRound).flatten, s') ∧ s'.procNum = 3 := by
  obtain ⟨nodes, inv, base, queue, one, entries⟩ := procInit_slices zeroed fresh init
  obtain ⟨s', nodes', run, inv', final⟩ :=
    schedule_slices inv base (procInit_words zeroed fresh init) (1 + rounds * 60)
  obtain ⟨left, shape⟩ : ∃ left, slicesOf s nodes = ⟨[0, 1, 2, 3], left⟩ :=
    ⟨(slicesOf s nodes).left, by rw [← queue]⟩
  rw [shape] at one run final entries
  -- the kernel starts with one slice, and everybody else with all of them
  have first : (Slices.mk [0, 1, 2, 3] left).after (weightOf s) 1 =
        ⟨[1, 2, 3, 0], Function.update left 0 (weightOf s 0)⟩ ∧
      (Slices.mk [0, 1, 2, 3] left).trace (weightOf s) 1 = [0] :=
    Slices.slice (n := 0) (weightOf s) 0 [1, 2, 3] one
  have full : ∀ p ∈ [1, 2, 3, 0],
      Function.update left 0 (weightOf s 0) p = weightOf s p ∧ 0 < weightOf s p := by
    intro p member
    refine ⟨?_, slices_pos _⟩
    by_cases kernel : p = 0
    · rw [kernel, Function.update_self]
    · rw [Function.update_of_ne kernel]
      exact (entries p member).2 kernel
  have sum : ([1, 2, 3, 0].map (weightOf s)).sum = 60 := by
    simp only [List.map_cons, List.map_nil, (entries 1 (by simp)).1, (entries 2 (by simp)).1,
      (entries 3 (by simp)).1, (entries 0 (by simp)).1]
    rfl
  have round : ([1, 2, 3, 0].flatMap fun p => List.replicate (weightOf s p) p) = bootRound :=
    List.flatMap_congr fun p member => by rw [(entries p member).1]
  obtain ⟨later, turns⟩ := Slices.rounds (weightOf s) full rounds
  rw [sum] at later turns
  rw [Slices.trace_add, first.1, first.2, turns, round] at run
  rw [Slices.after_add, first.1, later] at final
  refine ⟨s', run, ?_⟩
  have length : (pidsOf s' nodes').length = 4 := congrArg (fun st => st.queue.length) final
  have count := inv'.count
  rw [pidsOf, List.length_map] at length
  omega

theorem bootSchedule_of_sample :
    ∃ s s', procInit sampleInitMemory zeroSched = .ok ((), s) ∧
      schedule 121 s = .ok (0 :: (bootRound ++ bootRound), s') := by
  have zeroed : Zeroed zeroSched := ⟨rfl, rfl, rfl, rfl⟩
  have fresh : InitFresh sampleInitMemory := ⟨by decide, by decide⟩
  obtain ⟨s, nodes, init, -, -⟩ := procInit_booted zeroed fresh
  obtain ⟨s', run, -⟩ := bootSchedule_exact zeroed fresh init 2
  refine ⟨s, s', init, run.trans ?_⟩
  simp [List.replicate]

end Runs

end TrashOS
