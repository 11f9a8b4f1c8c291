import TrashOS.Proc.Queue

/-!
# `proc_init` over memory that was used before

`proc_init` takes the process table from `kmalloc`, which does not clear it, and
writes a few fields of the entries it registers.  The rest is what the memory
held: the `state` fields steer the search for a PID, and the `page_tables` fields
of the entries registered become the tails of their lists.

`Initialised` is what the scheduler needs, `CleanTable` what the memory must have
held, and `procInit_initialised_iff` says that the two go together.  The proof
follows the three registrations: whatever the table holds, each takes a PID that
was dead and leaves the other entries alone (`InitRun.result`), so what is dead at
the end was dead in memory; and over a table of dead entries the PIDs chosen are
`1`, `2` and `3` (`procInit_clean`).
-/

namespace TrashOS

variable {s s' s₀ : Sched} {nodes : List ℕ} {memory : RegisterMemory}
  {entryPoint priority pid : ℕ}

/-! ## One registration -/

theorem procNewPid_returned {fuel : ℕ} (word : s.nextPid < pidMax)
    (returned : procNewPid fuel s = .ok (pid, s')) :
    pid < pidMax ∧ (s.procTable pid).state = .dead ∧
      s' = { s with nextPid := (pid + 1) % pidMax } := by
  induction fuel generalizing s with
  | zero => cases returned
  | succ fuel ih =>
      by_cases here : (s.procTable s.nextPid).state = .dead
      · rw [procNewPid_take here] at returned
        cases returned
        exact ⟨word, here, rfl⟩
      · rw [procNewPid_skip here] at returned
        exact ih (s := { s with nextPid := (s.nextPid + 1) % pidMax }) (Nat.mod_lt _ (by decide))
          returned

/-- A registration that returned found a dead PID, whatever the table holds. -/
theorem procRegister_returned (queue : QueueOf s nodes) (fresh : memory.queueNode ∉ nodes)
    (nonnull : memory.queueNode ≠ 0) (word : s.nextPid < pidMax)
    (returned : procRegister memory entryPoint priority s = .ok (pid, s')) :
    Registered s s' nodes memory entryPoint priority pid := by
  have remains : ∃ p < pidMax, (s.procTable p).state = .dead := by
    unfold procRegister at returned
    obtain ⟨p, s₁, newPid, -⟩ := Prog.bind_eq_ok.mp returned
    obtain ⟨small, dead, -⟩ := procNewPid_returned word newPid
    exact ⟨p, small, dead⟩
  obtain ⟨pid', t, run, reg⟩ :=
    procRegister_run memory entryPoint priority queue fresh nonnull word remains
  rw [run] at returned
  cases returned
  exact reg

/-- The PID of a registration is the first dead one. -/
theorem Registered.pid_eq (reg : Registered s s' nodes memory entryPoint priority pid)
    (dead : (s.procTable s.nextPid).state = .dead) : pid = s.nextPid := by
  have chosen := reg.chosen
  rw [procNewPid_take dead] at chosen
  cases chosen
  rfl

/-- The search passes over one PID in use. -/
theorem Registered.pid_skip (reg : Registered s s' nodes memory entryPoint priority pid)
    (taken : (s.procTable s.nextPid).state ≠ .dead)
    (dead : (s.procTable ((s.nextPid + 1) % pidMax)).state = .dead) :
    pid = (s.nextPid + 1) % pidMax := by
  have chosen := reg.chosen
  have some : pidMax = (pidMax - 1) + 1 := by decide
  rw [procNewPid_skip taken, some, procNewPid_take dead] at chosen
  cases chosen
  rfl

/-- A registration makes its process active. -/
theorem Registered.table_self (reg : Registered s s' nodes memory entryPoint priority pid) :
    (s'.procTable pid).state = .active ∧ (s'.procTable pid).pageTables = memory.tableNode := by
  rw [reg.table, registeredTable, Function.update_self]
  exact ⟨rfl, rfl⟩

/-- It leaves the others alone. -/
theorem Registered.table_of_ne (reg : Registered s s' nodes memory entryPoint priority pid)
    {p : ℕ} (differs : p ≠ pid) : s'.procTable p = s.procTable p := by
  rw [reg.table, registeredTable, Function.update_of_ne differs]

/-- Its PID was not in use. -/
theorem Registered.ne_of_used (reg : Registered s s' nodes memory entryPoint priority pid)
    {p : ℕ} (used : (s.procTable p).state ≠ .dead) : p ≠ pid := fun same =>
  used (same ▸ reg.dead)

/-! ## What `proc_init` leaves -/

/-- The queue nodes of `proc_init`. -/
def InitMemory.queueNodes (memory : InitMemory) : List ℕ :=
  [memory.kernelNode, memory.memory1.queueNode, memory.memory2.queueNode, memory.memory3.queueNode]

/-- The three registrations, over a table that holds `s₀`. -/
def InitRun (memory : InitMemory) (s₀ s : Sched) (p₁ p₂ p₃ : ℕ) : Prop :=
  ∃ k s₁ s₂, KernelQueued s₀ k memory.kernelNode ∧
    Registered k s₁ [memory.kernelNode] memory.memory1 memory.proc1 30 p₁ ∧
    Registered s₁ s₂ [memory.kernelNode, memory.memory1.queueNode] memory.memory2 memory.proc2 10
      p₂ ∧
    Registered s₂ s [memory.kernelNode, memory.memory1.queueNode, memory.memory2.queueNode]
      memory.memory3 memory.proc3 10 p₃

theorem stackNode_congr (same : s'.procTable pid = s.procTable pid) :
    stackNode s' pid memory = stackNode s pid memory := by
  unfold stackNode
  rw [same]

/-- What became of a process that was registered. -/
structure Started (s₀ s : Sched) (memory : RegisterMemory) (p : ℕ) : Prop where
  word : p < pidMax
  dead : (s₀.procTable p).state = .dead
  active : (s.procTable p).state = .active
  head : (s.procTable p).pageTables = memory.tableNode
  node : s.pageNodes memory.tableNode = stackNode s₀ p memory

/-- What became of the whole table. -/
structure InitResult (memory : InitMemory) (s₀ s : Sched) (p₁ p₂ p₃ : ℕ) : Prop where
  nodup : [0, p₁, p₂, p₃].Nodup
  pids : pidsOf s memory.queueNodes = [0, p₁, p₂, p₃]
  kernel : s.procTable 0 = kernelEntry (s₀.procTable 0)
  first : Started s₀ s memory.memory1 p₁
  second : Started s₀ s memory.memory2 p₂
  third : Started s₀ s memory.memory3 p₃
  others : ∀ p, p ∉ [0, p₁, p₂, p₃] → s.procTable p = s₀.procTable p

section Run

variable {memory : InitMemory} {p₁ p₂ p₃ : ℕ}

/-- `proc_init` can only return through the three registrations. -/
theorem procInit_returned (boot : AtBoot s₀) (fresh : InitFresh memory)
    (returned : procInit memory s₀ = .ok ((), s)) : ∃ p₁ p₂ p₃, InitRun memory s₀ s p₁ p₂ p₃ := by
  obtain ⟨queueNodes, -⟩ := fresh
  simp only [List.nodup_cons, List.mem_cons, List.not_mem_nil, or_false, not_or,
    not_false_eq_true, and_true, List.nodup_nil] at queueNodes
  obtain ⟨⟨k1, k2, k3, k0⟩, ⟨q12, q13, q1⟩, ⟨q23, q2⟩, q3⟩ := queueNodes
  obtain ⟨k, init, queued⟩ := procInit_queue memory boot k0
  rw [init] at returned
  unfold procRegisterAll at returned
  obtain ⟨p₁, s₁, run₁, returned⟩ := Prog.bind_eq_ok.mp returned
  obtain ⟨p₂, s₂, run₂, returned⟩ := Prog.bind_eq_ok.mp returned
  obtain ⟨p₃, s₃, run₃, final⟩ := Prog.bind_eq_ok.mp returned
  cases final
  have reg₁ := procRegister_returned queued.queue (by simp [Ne.symm k1]) q1
    (by rw [queued.next]; decide) run₁
  have reg₂ := procRegister_returned reg₁.queue (by simp [Ne.symm k2, Ne.symm q12]) q2
    reg₁.next_lt run₂
  have reg₃ := procRegister_returned reg₂.queue
    (by simp [Ne.symm k3, Ne.symm q13, Ne.symm q23]) q3 reg₂.next_lt run₃
  exact ⟨p₁, p₂, p₃, k, s₁, s₂, queued, reg₁, reg₂, reg₃⟩

theorem InitRun.result (fresh : InitFresh memory) (run : InitRun memory s₀ s p₁ p₂ p₃) :
    InitResult memory s₀ s p₁ p₂ p₃ := by
  obtain ⟨k, s₁, s₂, queued, reg₁, reg₂, reg₃⟩ := run
  obtain ⟨-, tableNodes⟩ := fresh
  simp only [List.nodup_cons, List.mem_cons, List.not_mem_nil, or_false, not_or,
    not_false_eq_true, and_true, List.nodup_nil] at tableNodes
  obtain ⟨⟨t12, t13, t1⟩, ⟨t23, t2⟩, t3⟩ := tableNodes
  have entry0 : k.procTable 0 = kernelEntry (s₀.procTable 0) := by
    rw [queued.table, Function.update_self]
  have running : (k.procTable 0).state ≠ .dead := by
    rw [entry0]
    exact nofun
  -- a PID in use is not chosen again
  have n01 : 0 ≠ p₁ := reg₁.ne_of_used running
  have n02 : 0 ≠ p₂ := reg₂.ne_of_used (by rwa [reg₁.table_of_ne n01])
  have n03 : 0 ≠ p₃ := reg₃.ne_of_used (by rwa [reg₂.table_of_ne n02, reg₁.table_of_ne n01])
  have n12 : p₁ ≠ p₂ := reg₂.ne_of_used (by rw [reg₁.table_self.1]; exact nofun)
  have n13 : p₁ ≠ p₃ :=
    reg₃.ne_of_used (by rw [reg₂.table_of_ne n12, reg₁.table_self.1]; exact nofun)
  have n23 : p₂ ≠ p₃ := reg₃.ne_of_used (by rw [reg₂.table_self.1]; exact nofun)
  have old : ∀ {p}, 0 ≠ p → k.procTable p = s₀.procTable p := fun differs => by
    rw [queued.table, Function.update_of_ne differs.symm]
  have old₁ : s₁.procTable p₂ = s₀.procTable p₂ := by rw [reg₁.table_of_ne n12.symm, old n02]
  have old₂ : s₂.procTable p₃ = s₀.procTable p₃ := by
    rw [reg₂.table_of_ne n23.symm, reg₁.table_of_ne n13.symm, old n03]
  have new₁ : s.procTable p₁ = s₁.procTable p₁ := by
    rw [reg₃.table_of_ne n13, reg₂.table_of_ne n12]
  have new₂ : s.procTable p₂ = s₂.procTable p₂ := reg₃.table_of_ne n23
  refine ⟨?_, ?_, ?_, ⟨reg₁.word, ?_, ?_, ?_, ?_⟩, ⟨reg₂.word, ?_, ?_, ?_, ?_⟩,
    ⟨reg₃.word, ?_, reg₃.table_self.1, reg₃.table_self.2, ?_⟩, fun p notIn => ?_⟩
  · simp [n01, n02, n03, n12, n13, n23]
  · have pids := reg₃.pids
    have pids₂ := reg₂.pids
    have pids₁ := reg₁.pids
    rw [queued.pids] at pids₁
    rw [show [memory.kernelNode, memory.memory1.queueNode]
      = [memory.kernelNode] ++ [memory.memory1.queueNode] from rfl, pids₁] at pids₂
    rw [show [memory.kernelNode, memory.memory1.queueNode, memory.memory2.queueNode]
      = [memory.kernelNode, memory.memory1.queueNode] ++ [memory.memory2.queueNode] from rfl,
      show [memory.kernelNode, memory.memory1.queueNode]
      = [memory.kernelNode] ++ [memory.memory1.queueNode] from rfl, pids₂] at pids
    exact pids
  · rw [reg₃.table_of_ne n03, reg₂.table_of_ne n02, reg₁.table_of_ne n01, entry0]
  · rw [← old n01]
    exact reg₁.dead
  · rw [new₁]
    exact reg₁.table_self.1
  · rw [new₁]
    exact reg₁.table_self.2
  · rw [reg₃.otherNodes _ t13, reg₂.otherNodes _ t12, reg₁.pageNode]
    exact stackNode_congr (old n01)
  · rw [← old₁]
    exact reg₂.dead
  · rw [new₂]
    exact reg₂.table_self.1
  · rw [new₂]
    exact reg₂.table_self.2
  · rw [reg₃.otherNodes _ t23, reg₂.pageNode]
    exact stackNode_congr old₁
  · rw [← old₂]
    exact reg₃.dead
  · rw [reg₃.pageNode]
    exact stackNode_congr old₂
  · simp only [List.mem_cons, List.not_mem_nil, or_false, not_or] at notIn
    obtain ⟨h0, h1, h2, h3⟩ := notIn
    rw [reg₃.table_of_ne h3, reg₂.table_of_ne h2, reg₁.table_of_ne h1, old (Ne.symm h0)]

/-- Over a table of dead entries the PIDs are chosen in order. -/
theorem procInit_clean (boot : AtBoot s₀) (fresh : InitFresh memory)
    (dead : ∀ p, 0 < p → p < pidMax → (s₀.procTable p).state = .dead) :
    ∃ s, procInit memory s₀ = .ok ((), s) ∧ InitRun memory s₀ s 1 2 3 := by
  obtain ⟨queueNodes, -⟩ := fresh
  simp only [List.nodup_cons, List.mem_cons, List.not_mem_nil, or_false, not_or,
    not_false_eq_true, and_true, List.nodup_nil] at queueNodes
  obtain ⟨⟨k1, k2, k3, k0⟩, ⟨q12, q13, q1⟩, ⟨q23, q2⟩, q3⟩ := queueNodes
  obtain ⟨k, init, queued⟩ := procInit_queue memory boot k0
  have running : (k.procTable k.nextPid).state ≠ .dead := by
    rw [queued.next, queued.table, Function.update_self]
    exact nofun
  have old : ∀ {p}, 0 < p → p < pidMax → (k.procTable p).state = .dead := fun pos small => by
    rw [queued.table, Function.update_of_ne (by omega)]
    exact dead _ pos small
  obtain ⟨p₁, s₁, run₁, reg₁⟩ := procRegister_run memory.memory1 memory.proc1 30
    queued.queue (by simp [Ne.symm k1]) q1 (by rw [queued.next]; decide)
    ⟨1, by decide, old (by decide) (by decide)⟩
  have first : p₁ = 1 := by
    have := reg₁.pid_skip running (by rw [queued.next]; exact old (by decide) (by decide))
    rwa [queued.next] at this
  subst first
  have next₁ : s₁.nextPid = 2 := reg₁.next
  have old₁ : ∀ {p}, 1 < p → p < pidMax → (s₁.procTable p).state = .dead := fun pos small => by
    rw [reg₁.table_of_ne (by omega)]
    exact old (by omega) small
  obtain ⟨p₂, s₂, run₂, reg₂⟩ := procRegister_run memory.memory2 memory.proc2 10
    reg₁.queue (by simp [Ne.symm k2, Ne.symm q12]) q2 reg₁.next_lt
    ⟨2, by decide, old₁ (by decide) (by decide)⟩
  have second : p₂ = 2 := by
    have := reg₂.pid_eq (by rw [next₁]; exact old₁ (by decide) (by decide))
    rwa [next₁] at this
  subst second
  have next₂ : s₂.nextPid = 3 := reg₂.next
  have old₂ : (s₂.procTable 3).state = .dead := by
    rw [reg₂.table_of_ne (by decide)]
    exact old₁ (by decide) (by decide)
  obtain ⟨p₃, s₃, run₃, reg₃⟩ := procRegister_run memory.memory3 memory.proc3 10
    reg₂.queue (by simp [Ne.symm k3, Ne.symm q13, Ne.symm q23]) q3 reg₂.next_lt
    ⟨3, by decide, old₂⟩
  have third : p₃ = 3 := by
    have := reg₃.pid_eq (by rw [next₂]; exact old₂)
    rwa [next₂] at this
  subst third
  refine ⟨s₃, ?_, k, s₁, s₂, queued, reg₁, reg₂, reg₃⟩
  rw [init, procRegisterAll, Prog.bind_of_ok run₁, Prog.bind_of_ok run₂, Prog.bind_of_ok run₃]
  rfl

/-! ## What the memory must have held -/

/-- A registered process is active, and its list has the one node of its stack
table. -/
structure OneTable (s : Sched) (memory : RegisterMemory) (p : ℕ) : Prop where
  active : (s.procTable p).state = .active
  list : PageList s p [memory.tableNode]
  stack : (s.pageNodes memory.tableNode).pageTableVma = memory.table

/-- **The table `proc_init` is to leave**: the kernel is running without page
tables, three processes are active with a stack table each, and every other PID
is dead. -/
def Initialised (memory : InitMemory) (s : Sched) : Prop :=
  (s.procTable 0).state = .running ∧ PageList s 0 [] ∧
    ∃ p₁ p₂ p₃, [0, p₁, p₂, p₃].Nodup ∧ pidsOf s memory.queueNodes = [0, p₁, p₂, p₃] ∧
      OneTable s memory.memory1 p₁ ∧ OneTable s memory.memory2 p₂ ∧ OneTable s memory.memory3 p₃ ∧
      ∀ p < pidMax, p ∉ [0, p₁, p₂, p₃] → (s.procTable p).state = .dead

/-- The memory of the process table holds a zero state for every PID but that of
the kernel, and null page tables for the first four. -/
structure CleanTable (s₀ : Sched) : Prop where
  dead : ∀ p, 0 < p → p < pidMax → (s₀.procTable p).state = .dead
  tables : ∀ p < 4, (s₀.procTable p).pageTables = 0

/-- The nodes of the page-table lists are not null. -/
theorem InitFresh.nonnull (fresh : InitFresh memory) :
    memory.memory1.tableNode ≠ 0 ∧ memory.memory2.tableNode ≠ 0 ∧ memory.memory3.tableNode ≠ 0 := by
  have tableNodes := fresh.tableNodes
  simp only [List.nodup_cons, List.mem_cons, List.not_mem_nil, or_false, not_or,
    not_false_eq_true, and_true, List.nodup_nil] at tableNodes
  obtain ⟨⟨-, -, t1⟩, ⟨-, t2⟩, t3⟩ := tableNodes
  exact ⟨t1, t2, t3⟩

/-- The list of a registered process ends after its stack table if and only if the
entry held a null pointer. -/
theorem Started.oneTable_iff {memory : RegisterMemory} {p : ℕ} (started : Started s₀ s memory p)
    (nonnull : memory.tableNode ≠ 0) :
    OneTable s memory p ↔ (s₀.procTable p).pageTables = 0 := by
  have next : (s.pageNodes memory.tableNode).next = (s₀.procTable p).pageTables := by
    rw [started.node]
    rfl
  constructor
  · rintro ⟨-, list, -⟩
    obtain ⟨-, -, rest⟩ := list.list
    rw [← next]
    exact rest
  · intro null
    refine ⟨started.active, ⟨⟨started.head, nonnull, next.trans null⟩, by simp [walkFuel]⟩, ?_⟩
    rw [started.node]
    rfl

/-- The kernel has no page tables if and only if its entry held a null pointer. -/
theorem InitResult.kernel_iff (result : InitResult memory s₀ s p₁ p₂ p₃) :
    PageList s 0 [] ↔ (s₀.procTable 0).pageTables = 0 := by
  have same : (s.procTable 0).pageTables = (s₀.procTable 0).pageTables := by
    rw [result.kernel]
    rfl
  constructor
  · intro list
    rw [← same]
    exact list.list
  · intro null
    exact ⟨same.trans null, by decide⟩

/-- What is clean at the end was clean in memory. -/
theorem Initialised.clean (boot : AtBoot s₀) (fresh : InitFresh memory)
    (returned : procInit memory s₀ = .ok ((), s)) (initialised : Initialised memory s) :
    CleanTable s₀ := by
  obtain ⟨-, kernel, p₁, p₂, p₃, -, pids, one₁, one₂, one₃, others⟩ := initialised
  obtain ⟨q₁, q₂, q₃, run⟩ := procInit_returned boot fresh returned
  have result := run.result fresh
  have same := pids.symm.trans result.pids
  cases same
  have dead : ∀ p, 0 < p → p < pidMax → (s₀.procTable p).state = .dead := by
    intro p pos small
    by_cases listed : p ∈ [0, p₁, p₂, p₃]
    · simp only [List.mem_cons, List.not_mem_nil, or_false] at listed
      rcases listed with rfl | rfl | rfl | rfl
      · exact absurd pos (lt_irrefl 0)
      · exact result.first.dead
      · exact result.second.dead
      · exact result.third.dead
    · rw [← result.others p listed]
      exact others p small listed
  -- with only dead entries in the way the PIDs are known
  obtain ⟨s', returned', run'⟩ := procInit_clean boot fresh dead
  rw [returned'] at returned
  cases returned
  have first := result.pids.symm.trans (run'.result fresh).pids
  cases first
  obtain ⟨t1, t2, t3⟩ := fresh.nonnull
  refine ⟨dead, fun p small => ?_⟩
  have cases : p = 0 ∨ p = 1 ∨ p = 2 ∨ p = 3 := by omega
  rcases cases with rfl | rfl | rfl | rfl
  · exact result.kernel_iff.mp kernel
  · exact (result.first.oneTable_iff t1).mp one₁
  · exact (result.second.oneTable_iff t2).mp one₂
  · exact (result.third.oneTable_iff t3).mp one₃

/-- Over clean memory `proc_init` does what it is to do. -/
theorem procInit_initialised (boot : AtBoot s₀) (fresh : InitFresh memory)
    (clean : CleanTable s₀) :
    ∃ s, procInit memory s₀ = .ok ((), s) ∧ Initialised memory s := by
  obtain ⟨dead, tables⟩ := clean
  obtain ⟨s, returned, run⟩ := procInit_clean boot fresh dead
  have result := run.result fresh
  obtain ⟨t1, t2, t3⟩ := fresh.nonnull
  refine ⟨s, returned, ?_, result.kernel_iff.mpr (tables 0 (by decide)), 1, 2, 3, result.nodup,
    result.pids, (result.first.oneTable_iff t1).mpr (tables 1 (by decide)),
    (result.second.oneTable_iff t2).mpr (tables 2 (by decide)),
    (result.third.oneTable_iff t3).mpr (tables 3 (by decide)), fun p small notIn => ?_⟩
  · rw [result.kernel]
    rfl
  · rw [result.others p notIn]
    refine dead p (Nat.pos_of_ne_zero fun zero => notIn ?_) small
    simp [zero]

/-- **Initialisation over used memory.** `proc_init` returns with the table it is to leave if and
only if the memory of the table was clean.  `proc_init` writes the entries it fills, and no
others: a state other than zero in the memory that `kmalloc` returned is a process that nobody
registered, and page tables other than null become the tail of a list. -/
theorem procInit_initialised_iff (boot : AtBoot s₀) (fresh : InitFresh memory) :
    (∃ s, procInit memory s₀ = .ok ((), s) ∧ Initialised memory s) ↔ CleanTable s₀ := by
  constructor
  · rintro ⟨s, returned, initialised⟩
    exact initialised.clean boot fresh returned
  · exact procInit_initialised boot fresh

end Run

theorem zeroSched_boot : AtBoot zeroSched := ⟨rfl, rfl, rfl⟩

theorem sampleInitMemory_fresh : InitFresh sampleInitMemory := ⟨by decide, by decide⟩

theorem procInit_initialised_sample :
    ∃ s, procInit sampleInitMemory zeroSched = .ok ((), s) ∧ Initialised sampleInitMemory s :=
  (procInit_initialised_iff zeroSched_boot sampleInitMemory_fresh).mpr
    ⟨fun _ _ _ => rfl, fun _ _ => rfl⟩

/-- A table in memory whose entry of PID 1 holds an old pointer. -/
def staleSched : Sched :=
  { zeroSched with
    procTable := fun p => { zeroProc with pageTables := if p = 1 then 0xE0300000 else 0 } }

/-- Over such a table `proc_init` returns, and the list of PID 1 goes on at the old
pointer. -/
theorem procInit_keeps_stale :
    ∃ s, procInit sampleInitMemory staleSched = .ok ((), s) ∧
      ¬ Initialised sampleInitMemory s := by
  have boot : AtBoot staleSched := ⟨rfl, rfl, rfl⟩
  obtain ⟨s, returned, -⟩ := procInit_clean boot sampleInitMemory_fresh fun _ _ _ => rfl
  refine ⟨s, returned, fun initialised => ?_⟩
  have clean := initialised.clean boot sampleInitMemory_fresh returned
  exact absurd (clean.tables 1 (by decide)) (by decide)

end TrashOS
