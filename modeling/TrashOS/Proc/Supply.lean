import TrashOS.Page.Hold
import TrashOS.Proc.Queue

/-!
# The allocators behind `proc.c`

`proc.c` takes its page tables, its stacks and its list nodes from `kmalloc`, `kalloc` and
`page_new`.  Here the scheduler and the kernel heap run side by side, each call of
`proc_register` with the calls of the allocators it makes.  What the scheduler relies on is
what the allocators give, so that every such run is one of the scheduler alone, and the
page table and the stack of a process stay its own (`privateMemory_of_boot`).

* `Requests` of `registerRequests` and of `procInitRequests` are the calls that the source
  makes, in its order; the scheduler gets what they answer.
* `Equipped` is the invariant of the two machines together, and `ProcStep.equipped` the
  step: the blocks of the scheduler are in use, so a new block is none of them, which is
  the freshness that the scheduler's own theorems assume.
* `Roomy` is a heap with room at its end; there the allocators do answer, so the runs that
  the theorem speaks of exist.
-/

namespace TrashOS

/-! ## What a tick leaves alone -/

/-- The page tables of the processes are the same. -/
def SameUserTables (s s' : Sched) : Prop := s'.userTables = s.userTables

instance : Std.Refl SameUserTables := ⟨fun _ => rfl⟩

instance : IsTrans Sched SameUserTables := ⟨fun _ _ _ first second => second.trans first⟩

namespace SameUserTables

theorem read {α : Type} (f : Sched → α) :
    Prog.Follows SameUserTables (Prog.read f : PM α) := by
  intro s a s' returned
  cases returned
  rfl

theorem update {f : Sched → Sched} (same : ∀ s, SameUserTables s (f s)) :
    Prog.Follows SameUserTables (Prog.update f : PM Unit) := by
  intro s a s' returned
  cases returned
  exact same s

theorem procMemMapNodes : ∀ fuel n, Prog.Follows SameUserTables (TrashOS.procMemMapNodes fuel n)
  | 0, _ => Prog.Follows.stop _
  | fuel + 1, _ => .ite (.pure _) (.bind (read _) fun _ => .bind (update fun _ => rfl) fun _ =>
      procMemMapNodes fuel _)

theorem procMemUnmapNodes :
    ∀ fuel n, Prog.Follows SameUserTables (TrashOS.procMemUnmapNodes fuel n)
  | 0, _ => Prog.Follows.stop _
  | fuel + 1, _ => .ite (.pure _) (.bind (read _) fun _ => .bind (update fun _ => rfl) fun _ =>
      procMemUnmapNodes fuel _)

theorem procQueueRotate : Prog.Follows SameUserTables TrashOS.procQueueRotate :=
  .bind (read _) fun _ => .bind (read _) fun _ => .bind (update fun _ => rfl) fun _ =>
    .bind (update fun _ => rfl) fun _ => .bind (read _) fun _ =>
    .bind (update fun _ => rfl) fun _ => update fun _ => rfl

theorem procSwitch : Prog.Follows SameUserTables TrashOS.procSwitch :=
  .bind (read _) fun _ => .bind (update fun _ => rfl) fun _ => .bind procQueueRotate fun _ =>
    .bind (update fun _ => rfl) fun _ =>
    .bind (.bind (read _) fun _ => procMemUnmapNodes _ _) fun _ => .bind (read _) fun _ =>
    .bind (read _) fun _ => .bind (update fun _ => rfl) fun _ =>
    .bind (.bind (read _) fun _ => procMemMapNodes _ _) fun _ => update fun _ => rfl

theorem procNext : Prog.Follows SameUserTables TrashOS.procNext :=
  .bind (read _) fun _ => .bind (update fun _ => rfl) fun _ => .bind (read _) fun _ =>
    .ite procSwitch (.pure _)

end SameUserTables

section Ticks

variable {s s' : Sched} {nodes nodes' : List ℕ}

/-- A tick keeps the nodes of the queue. -/
theorem procNext_nodes (inv : SchedInv s nodes) (base : SchedBase s nodes)
    (returned : procNext s = .ok ((), s')) (queue' : QueueOf s' nodes') : nodes'.Perm nodes := by
  rcases procNext_cases inv base returned with ⟨-, rfl⟩ | ⟨-, x, xs, next, rfl, queue, -, -⟩
  · obtain rfl := queue'.list.unique inv.queue.list
    exact .refl _
  · obtain rfl := queue'.list.unique queue.list
    exact List.perm_append_singleton x xs

end Ticks

/-! ## The requests of `proc.c` -/

/-- `sizeof(proc_page_node_t)` -/
def procPageNodeSize : ℕ := 16

/-- `sizeof(pid_node_t)` -/
def pidNodeSize : ℕ := 8

/-- The calls of the allocators in `proc_register`, with their results. -/
def registerRequests (memory : RegisterMemory) : List Request :=
  [.block pageSize pageSize memory.table,
    .block kmMinAllocSize procPageNodeSize memory.tableNode,
    .pmaOf memory.table memory.tablePma,
    .frame memory.stackPma,
    .block kmMinAllocSize pidNodeSize memory.queueNode]

/-- The calls of the allocators in `proc_init` before the first registration, with
`sizeof(proc_t)` and the process table. -/
def initRequests (procSize procTable : ℕ) (memory : InitMemory) : List Request :=
  [.block kmMinAllocSize (pidMax * procSize) procTable,
    .block pageSize pageSize memory.stackPage,
    .block kmMinAllocSize pidNodeSize memory.kernelNode]

/-- The calls of the allocators in `proc_init`. -/
def procInitRequests (procSize procTable : ℕ) (memory : InitMemory) : List Request :=
  initRequests procSize procTable memory ++ (registerRequests memory.memory1 ++
    (registerRequests memory.memory2 ++ registerRequests memory.memory3))

/-- The scheduler, the allocators as its caller sees them, and what the registrations were
given, each with its PID. -/
structure ProcKernel where
  holder : Holder
  sched : Sched
  given : List (ℕ × RegisterMemory)

/-- A call of others on the kernel heap, a timer tick, or a registration with its calls of
the allocators. -/
inductive ProcStep : ProcKernel → ProcKernel → Prop
  | other {k : ProcKernel} {w' : Client PageTables}
      (step : KernelStep SafeFree k.holder.client w')
      (kept : ∀ c ∈ k.holder.blocks, c ∈ w'.live) :
      ProcStep k { k with holder := { k.holder with client := w' } }
  | tick {k : ProcKernel} {s' : Sched} (returned : procNext k.sched = .ok ((), s')) :
      ProcStep k { k with sched := s' }
  | register {k : ProcKernel} {h' : Holder} {s' : Sched} {memory : RegisterMemory}
      {entryPoint priority pid : ℕ}
      (requests : Requests k.holder (registerRequests memory) h')
      (remains : ∃ p < pidMax, (k.sched.procTable p).state = .dead)
      (returned : procRegister memory entryPoint priority k.sched = .ok (pid, s')) :
      ProcStep k ⟨h', s', (pid, memory) :: k.given⟩

/-- **The stack of a process**: its one node leads to the table it was given, and the table
to the frame it was given. -/
structure StackOf (s : Sched) (pid : ℕ) (memory : RegisterMemory) : Prop where
  list : PageList s pid [memory.tableNode]
  node : s.pageNodes memory.tableNode =
    { next := 0, pageDirIdx := Word32.sub kernelStartVma pageSize >>> 22,
      pageTableVma := memory.table, pageDirEntry := memory.tablePma ||| userDataFlags }
  stack : s.userTables memory.table stackIdx = memory.stackPma ||| userDataFlags

/-- **The scheduler has what it was given.** -/
structure Equipped (k : ProcKernel) (H : Heap) (frees queue : List ℕ) : Prop where
  holding : Holding k.holder H frees
  inv : SchedInv k.sched queue
  base : SchedBase k.sched queue
  queueBlocks : queue ⊆ k.holder.blocks.map Chunk.vma
  lists : PageNodesIn k.sched (k.given.map fun x => x.2.tableNode)
  nodeBlocks : ∀ x ∈ k.given, x.2.tableNode ∈ k.holder.blocks.map Chunk.vma
  tableBlocks : ∀ x ∈ k.given, x.2.table ∈ k.holder.blocks.map Chunk.vma
  aligned : ∀ x ∈ k.given, x.2.table % pageSize = 0
  tables : (k.given.map fun x => x.2.table).Nodup
  pages : k.holder.pages = k.given.map fun x => (x.2.table, x.2.tablePma)
  frames : k.holder.frames = k.given.map fun x => x.2.stackPma
  stackOf : ∀ x ∈ k.given, x.1 ∈ pidsOf k.sched queue ∧ StackOf k.sched x.1 x.2
  users : ∀ p ∈ pidsOf k.sched queue, p ≠ 0 → p ∈ k.given.map Prod.fst

section Steps

variable {k k' : ProcKernel} {H : Heap} {frees queue : List ℕ} {memory : RegisterMemory}
  {s' : Sched} {h' : Holder}

/-- A call of others. -/
theorem Equipped.other (equipped : Equipped k H frees queue) {w' : Client PageTables}
    (step : KernelStep SafeFree k.holder.client w') (kept : ∀ c ∈ k.holder.blocks, c ∈ w'.live) :
    ∃ M rest, Equipped { k with holder := { k.holder with client := w' } } M rest queue := by
  obtain ⟨M, rest, holding⟩ := equipped.holding.other step kept
  exact ⟨M, rest, { equipped with holding := holding }⟩

/-- A timer tick. -/
theorem Equipped.tick (equipped : Equipped k H frees queue)
    (returned : procNext k.sched = .ok ((), s')) :
    ∃ queue', Equipped { k with sched := s' } H frees queue' := by
  obtain ⟨t, queue', run, ticked, inv', base'⟩ := procNext_keeps equipped.inv equipped.base
  cases returned.symm.trans run
  have perm := procNext_nodes equipped.inv equipped.base returned inv'.queue
  have tables : s'.userTables = k.sched.userTables := SameUserTables.procNext _ _ _ returned
  refine ⟨queue', equipped.holding, inv', base', fun n member => ?_, fun p nodes list => ?_,
    equipped.nodeBlocks, equipped.tableBlocks, equipped.aligned, equipped.tables, equipped.pages,
    equipped.frames, fun x listed => ?_, fun p queued => ?_⟩
  · exact equipped.queueBlocks (perm.mem_iff.mp member)
  · exact equipped.lists p nodes (list.congr ticked.pageNodes.symm (ticked.pageTables p).symm)
  · obtain ⟨queued, list, node, stack⟩ := equipped.stackOf x listed
    exact ⟨ticked.pids.mem_iff.mpr queued, list.congr ticked.pageNodes (ticked.pageTables _),
      (congrFun ticked.pageNodes _).trans node, (congrFun (congrFun tables _) _).trans stack⟩
  · exact equipped.users p (ticked.pids.mem_iff.mp queued)

/-- A new registration leaves the stacks of the others alone. -/
theorem StackOf.register {s : Sched} {nodes : List ℕ} {pid entryPoint priority p : ℕ}
    {memory' : RegisterMemory} (own : StackOf s p memory')
    (reg : Registered s s' nodes memory entryPoint priority pid) (base : SchedBase s nodes)
    (fresh : Fresh s memory) (other : p ≠ pid) (node : memory'.tableNode ≠ memory.tableNode)
    (table : memory'.table ≠ memory.table) : StackOf s' p memory' where
  list := (reg.lists base fresh).2 p other _ own.list
  node := (reg.otherNodes _ node).trans own.node
  stack := by
    rw [reg.userTables, Function.update_of_ne table]
    exact own.stack

/-- A registration, with the calls of the allocators it makes, returns: what it is given is
fresh. -/
theorem Equipped.register (equipped : Equipped k H frees queue)
    (requests : Requests k.holder (registerRequests memory) h')
    (remains : ∃ p < pidMax, (k.sched.procTable p).state = .dead) (entryPoint priority : ℕ) :
    Fresh k.sched memory ∧ ∃ pid s' M rest,
      procRegister memory entryPoint priority k.sched = .ok (pid, s') ∧
        Equipped ⟨h', s', (pid, memory) :: k.given⟩ M rest (queue ++ [memory.queueNode]) := by
  obtain ⟨M, rest, holding'⟩ := holding_of_steps equipped.holding requests.steps
  obtain ⟨blocks, frames, pages⟩ := requests.given
  have multiple : memory.table % pageSize = 0 := by
    cases requests with
    | cons answers later => exact equipped.holding.aligned answers
  have vmas : h'.blocks.map Chunk.vma = memory.queueNode :: memory.tableNode :: memory.table ::
      k.holder.blocks.map Chunk.vma := by
    rw [blocks]
    rfl
  have nodup := holding'.vmas
  rw [vmas] at nodup
  simp only [List.nodup_cons, List.mem_cons, not_or] at nodup
  obtain ⟨⟨nullQ, nullN, nullT, -⟩, ⟨-, -, newQ⟩, ⟨-, newN⟩, newT, -⟩ := nodup
  have keeps : k.holder.blocks.map Chunk.vma ⊆ h'.blocks.map Chunk.vma := by
    rw [vmas]
    intro v member
    simp [member]
  have fresh : Fresh k.sched memory := by
    refine fresh_of_known equipped.inv.queue equipped.lists
      (fun member => newQ (equipped.queueBlocks member)) (Ne.symm nullQ) (fun member => ?_)
      (Ne.symm nullN)
    obtain ⟨x, listed, same⟩ := List.mem_map.mp member
    exact newN (same ▸ equipped.nodeBlocks x listed)
  obtain ⟨pid, s', run, reg, inv', base'⟩ :=
    procRegister_keeps entryPoint priority equipped.inv equipped.base fresh remains
  have unused : pid ∉ pidsOf k.sched queue := fun queued =>
    (equipped.inv.registered pid).mp queued reg.dead
  refine ⟨fresh, pid, s', M, rest, run, holding', inv', base', fun n member => ?_,
    reg.pageNodesIn equipped.base fresh equipped.lists, fun x listed => ?_, fun x listed => ?_,
    fun x listed => ?_, ?_, ?_, ?_, fun x listed => ?_, fun p queued user => ?_⟩
  · rcases List.mem_append.mp member with old | new
    · exact keeps (equipped.queueBlocks old)
    · rw [vmas, List.mem_singleton.mp new]
      exact List.mem_cons_self
  · rcases List.mem_cons.mp listed with rfl | old
    · rw [vmas]
      simp
    · exact keeps (equipped.nodeBlocks x old)
  · rcases List.mem_cons.mp listed with rfl | old
    · rw [vmas]
      simp
    · exact keeps (equipped.tableBlocks x old)
  · rcases List.mem_cons.mp listed with rfl | old
    · exact multiple
    · exact equipped.aligned x old
  · refine List.nodup_cons.mpr ⟨fun member => ?_, equipped.tables⟩
    obtain ⟨x, listed, same⟩ := List.mem_map.mp member
    change x.2.table = memory.table at same
    exact newT (same ▸ equipped.tableBlocks x listed)
  · rw [pages, equipped.pages]
    rfl
  · rw [frames, equipped.frames]
    rfl
  · rw [reg.pids]
    rcases List.mem_cons.mp listed with rfl | old
    · refine ⟨by simp, (reg.lists equipped.base fresh).1, ?_, ?_⟩
      · rw [reg.pageNode, stackNode, equipped.base.unused pid reg.dead]
      · rw [reg.userTables, Function.update_self, Function.update_self]
    · obtain ⟨queued, own⟩ := equipped.stackOf x old
      refine ⟨List.mem_append_left _ queued, own.register reg equipped.base fresh ?_ ?_ ?_⟩
      · exact fun same => unused (same ▸ queued)
      · exact fun same => newN (same ▸ equipped.nodeBlocks x old)
      · exact fun same => newT (same ▸ equipped.tableBlocks x old)
  · rw [reg.pids, List.mem_append, List.mem_singleton] at queued
    rcases queued with old | rfl
    · exact List.mem_cons_of_mem _ (equipped.users p old user)
    · exact List.mem_cons_self

/-- **One step** is at most one step of the scheduler. -/
theorem ProcStep.equipped (equipped : Equipped k H frees queue) (step : ProcStep k k') :
    Relation.ReflTransGen SchedStep k.sched k'.sched ∧
      ∃ M rest queue', Equipped k' M rest queue' := by
  cases step with
  | other step kept =>
      obtain ⟨M, rest, after⟩ := equipped.other step kept
      exact ⟨.refl, M, rest, queue, after⟩
  | tick returned =>
      obtain ⟨queue', after⟩ := equipped.tick returned
      exact ⟨.single (.tick returned), H, frees, queue', after⟩
  | register requests remains returned =>
      obtain ⟨fresh, pid, s', M, rest, run, after⟩ := equipped.register requests remains _ _
      cases returned.symm.trans run
      exact ⟨.single (.register fresh remains returned), M, rest, _, after⟩

/-- **Every run** is one of the scheduler. -/
theorem equipped_of_run (equipped : Equipped k H frees queue)
    (run : Relation.ReflTransGen ProcStep k k') :
    Relation.ReflTransGen SchedStep k.sched k'.sched ∧
      ∃ M rest queue', Equipped k' M rest queue' := by
  induction run with
  | refl => exact ⟨.refl, H, frees, queue, equipped⟩
  | tail _ step ih =>
      obtain ⟨before, M, rest, queue', equipped₁⟩ := ih
      obtain ⟨after, final⟩ := step.equipped equipped₁
      exact ⟨before.trans after, final⟩

end Steps

/-! ## What the processes have to themselves -/

/-- **Every process has its page table and its stack to itself.**  Each PID but that of the
kernel has a registration, whose page table leads to the stack it was given; the table is
the one page with its frame, the frame of the stack is the frame of no page, so that the
kernel's own mappings and those of other processes do not reach it, and none of these
frames is handed out again. -/
structure PrivateMemory (k : ProcKernel) (frees queue : List ℕ) : Prop where
  users : ∀ p ∈ pidsOf k.sched queue, p ≠ 0 → ∃ memory, (p, memory) ∈ k.given
  stackOf : ∀ x ∈ k.given, StackOf k.sched x.1 x.2
  table : ∀ x ∈ k.given, ∀ page,
    heldFrame k.holder.client.sys.pages page = some x.2.tablePma ↔ page = x.2.table / pageSize
  unheld : ∀ x ∈ k.given, ∀ page,
    heldFrame k.holder.client.sys.pages page ≠ some x.2.stackPma
  tablePmas : (k.given.map fun x => x.2.tablePma).Nodup
  stackPmas : (k.given.map fun x => x.2.stackPma).Nodup
  notSpare : ∀ x ∈ k.given, x.2.tablePma ∉ frees.map k.holder.client.sys.mem ∧
    x.2.stackPma ∉ frees.map k.holder.client.sys.mem
  below : ∀ x ∈ k.given, x.2.stackPma < k.holder.client.sys.pages.heapEndPma

theorem Equipped.privateMemory {k : ProcKernel} {H : Heap} {frees queue : List ℕ}
    (equipped : Equipped k H frees queue) (kept : NextKept k.holder.client.sys.log) :
    PrivateMemory k frees queue := by
  have holdings := equipped.holding.holdings kept
  have listed : ∀ x ∈ k.given, (x.2.table, x.2.tablePma) ∈ k.holder.pages := fun x member =>
    equipped.pages ▸ List.mem_map_of_mem member
  have reserved : ∀ x ∈ k.given, Reserved x.2.stackPma k.holder.client.sys frees :=
    fun x member => holdings.reserved _ (equipped.frames ▸ List.mem_map_of_mem member)
  have table : ∀ x ∈ k.given, ∀ page, heldFrame k.holder.client.sys.pages page =
      some x.2.tablePma ↔ page = x.2.table / pageSize := by
    intro x member page
    have alone := holdings.alone _ (listed x member)
    have held := holdings.held _ (listed x member)
    dsimp only at alone held
    exact ⟨alone (equipped.aligned x member) page, fun here => here ▸ held⟩
  refine ⟨fun p queued user => ?_, fun x member => (equipped.stackOf x member).2, table,
    fun x member => (reserved x member).unheld, ?_, equipped.frames ▸ holdings.distinct,
    fun x member => ⟨holdings.notSpare _ (listed x member), (reserved x member).notSpare⟩,
    fun x member => (reserved x member).below⟩
  · obtain ⟨x, member, rfl⟩ := List.mem_map.mp (equipped.users p queued user)
    exact ⟨x.2, member⟩
  · -- tables are different pages, and a frame has one page
    refine List.pairwise_map.mpr
      ((List.pairwise_map.mp equipped.tables).imp_of_mem fun {x y} memX memY differ same => ?_)
    change x.2.tablePma = y.2.tablePma at same
    have here := (table y memY _).mpr rfl
    rw [← same] at here
    have page := (table x memX _).mp here
    have alignedX := equipped.aligned x memX
    have alignedY := equipped.aligned y memY
    unfold pageSize at *
    omega

/-! ## `proc_init` -/

section Init

variable {w : Client PageTables} {H : Heap} {frees : List ℕ} {s₀ : Sched} {memory : InitMemory}
  {h : Holder} {procSize procTable : ℕ}

/-- The kernel is in the queue, and nobody else. -/
theorem equipped_of_kernel (owned : OwnedClient w H frees) (zeroed : Zeroed s₀)
    (requests : Requests ⟨w, [], [], []⟩ (initRequests procSize procTable memory) h) :
    ∃ s M rest, procInit memory s₀ = procRegisterAll memory s ∧
      Equipped ⟨h, s, []⟩ M rest [memory.kernelNode] := by
  obtain ⟨M, rest, holding⟩ := holding_of_steps owned.holding requests.steps
  obtain ⟨blocks, frames, pages⟩ := requests.given
  have nodup := holding.vmas
  rw [blocks] at nodup
  have nonnull : memory.kernelNode ≠ 0 := by
    rintro null
    refine (List.nodup_cons.mp nodup).1 ?_
    rw [← null]
    exact List.mem_cons_self
  obtain ⟨s, init, booted, lists, -⟩ := procInit_kernel zeroed nonnull
  refine ⟨s, M, rest, init, holding, booted.inv, booted.base, fun n member => ?_, lists, by simp,
    by simp, by simp, List.nodup_nil, pages, frames, by simp, fun p queued user => ?_⟩
  · rw [blocks, List.mem_singleton.mp member]
    exact List.mem_cons_self
  · have head : (s.pidNodes memory.kernelNode).pid = s.pid := by
      simpa [pidsOf] using booted.inv.head
    exact absurd ((List.mem_singleton.mp queued).trans (head.trans booted.kernel)) user

/-- **`proc_init`** returns, whatever the allocators give it. -/
theorem equipped_of_init (owned : OwnedClient w H frees) (zeroed : Zeroed s₀)
    (requests : Requests ⟨w, [], [], []⟩ (procInitRequests procSize procTable memory) h) :
    ∃ s p₁ p₂ p₃ M rest queue, procInit memory s₀ = .ok ((), s) ∧
      Equipped ⟨h, s, [(p₃, memory.memory3), (p₂, memory.memory2), (p₁, memory.memory1)]⟩
        M rest queue := by
  obtain ⟨h₀, first, later⟩ := requests.append
  obtain ⟨h₁, requests₁, later⟩ := later.append
  obtain ⟨h₂, requests₂, requests₃⟩ := later.append
  obtain ⟨s, M, rest, init, equipped⟩ := equipped_of_kernel owned zeroed first
  obtain ⟨-, p₁, s₁, M₁, rest₁, run₁, equipped₁⟩ := equipped.register requests₁
    (equipped.inv.exists_dead (by simp [pidMax])) memory.proc1 30
  obtain ⟨-, p₂, s₂, M₂, rest₂, run₂, equipped₂⟩ := equipped₁.register requests₂
    (equipped₁.inv.exists_dead (by simp [pidMax])) memory.proc2 10
  obtain ⟨-, p₃, s₃, M₃, rest₃, run₃, equipped₃⟩ := equipped₂.register requests₃
    (equipped₂.inv.exists_dead (by simp [pidMax])) memory.proc3 10
  refine ⟨s₃, p₁, p₂, p₃, M₃, rest₃, _, ?_, equipped₃⟩
  rw [init, procRegisterAll, Prog.bind_of_ok run₁, Prog.bind_of_ok run₂, Prog.bind_of_ok run₃]
  rfl

end Init

section Boot

variable {region : InitRegion} {contents : ℕ → ℕ → ℕ} {k₀ : Sys PageTables} {s₀ : Sched}

/-- **What `proc.c` is given stays its own.**  After `page_init_cleanup` and any calls of
others on the kernel heap, `proc_init` returns with whatever the allocators give it.  From
there on, in every run of timer ticks, of registrations and of calls of others that free
none of its blocks, the scheduler makes a run of its own, with no assumption on its memory,
and every process has its page table and its stack to itself.  The frames are those that
`page_new` hands out: the page of the local APIC is none of them. -/
theorem privateMemory_of_boot (boot : BootTables region k₀) (fits : region.Fits)
    (frames : BootFrames region contents k₀) (zeroed : Zeroed s₀) :
    ∃ k' made, (∀ depth, pageInitCleanup (depth + 2) contents region k₀ = .ok ((), k')) ∧
      (∃ H nodes, KernelClient ⟨k', made⟩ H nodes) ∧
      ∀ w, Relation.ReflTransGen (KernelStep SafeFree) ⟨k', made⟩ w →
        ∀ procSize procTable memory h,
          Requests ⟨w, [], [], []⟩ (procInitRequests procSize procTable memory) h →
          ∃ s p₁ p₂ p₃, procInit memory s₀ = .ok ((), s) ∧
            ∀ k, Relation.ReflTransGen ProcStep ⟨h, s, [(p₃, memory.memory3),
                (p₂, memory.memory2), (p₁, memory.memory1)]⟩ k →
              Relation.ReflTransGen SchedStep s k.sched ∧
                ∃ frees queue, PageNodes k.holder.client.sys frees ∧ SchedInv k.sched queue ∧
                  (NextKept k.holder.client.sys.log → PrivateMemory k frees queue) := by
  obtain ⟨k', made, H, nodes, runs, -, owned⟩ := ownedClient_of_boot boot fits frames
  refine ⟨k', made, runs, ⟨H, nodes, owned.client⟩,
    fun w run procSize procTable memory h requests => ?_⟩
  obtain ⟨M, rest, owned'⟩ := ownedClient_of_run owned run
  obtain ⟨s, p₁, p₂, p₃, M₁, rest₁, queue, init, equipped⟩ :=
    equipped_of_init owned' zeroed requests
  refine ⟨s, p₁, p₂, p₃, init, fun k later => ?_⟩
  obtain ⟨sched, M₂, rest₂, queue₂, final⟩ := equipped_of_run equipped later
  exact ⟨sched, rest₂, queue₂, final.holding.owned.client.memory.heap.list, final.inv,
    final.privateMemory⟩

end Boot

/-! ## Where there is room -/

/-- **A heap with room**: no page is listed, the heap ends at `stop` at the latest, and its
last page is used up to `used` at most. -/
structure Roomy (k : Holder) (used stop : ℕ) : Prop where
  client : ∃ H, KernelClient k.client H [] ∧ H.stop ≤ stop ∧ H.stop % pageSize ≤ used
  own : k.blocks ⊆ k.client.live

section Room

variable {k : Holder} {c : Chunk} {used used' stop stop' bytes : ℕ}

theorem PageAlignment.kmMin : PageAlignment kmMinAllocSize := ⟨3, by decide, by decide, rfl⟩

theorem Roomy.mono (roomy : Roomy k used stop) (moreUsed : used ≤ used') (moreStop : stop ≤ stop') :
    Roomy k used' stop' := by
  obtain ⟨⟨H, client, below, within⟩, own⟩ := roomy
  exact ⟨⟨H, client, below.trans moreStop, within.trans moreUsed⟩, own⟩

/-- `kmalloc` answers: the block is found, or put at the end of the heap. -/
theorem Roomy.block (roomy : Roomy k used stop) (request : bytes + 15 < 2 ^ 32)
    (fits : stop + roundBytes bytes + 8 ≤ 2 ^ 32 - pageSize)
    (inPage : used + (roundBytes bytes + 8) % pageSize < pageSize) :
    ∃ v k', Answers (.block kmMinAllocSize bytes v) k k' ∧
      Roomy k' (used + (roundBytes bytes + 8) % pageSize) (stop + roundBytes bytes + 8) := by
  obtain ⟨⟨H, client, below, within⟩, own⟩ := roomy
  have memory := client.memory
  have target : alignedEnd H.stop kmMinAllocSize = H.stop := alignedEnd_kmMin H.stop_aligned
  have suffices_ : SpaceSuffices k.client.sys kmMinAllocSize bytes := by
    refine ⟨request, ?_⟩
    rw [memory.heap.ctx.atEnd, target]
    omega
  rcases memory.alloc_cases PageAlignment.kmMin suffices_ (by omega) with
    ⟨-, v, s', M, runs, later, found, -⟩ | extends_
  · refine ⟨v, _, .block (ClientWrites.refl _ _) rfl PageAlignment.kmMin suffices_ (runs 0),
      ⟨M, client.found found later, ?_, ?_⟩, List.cons_subset_cons _ own⟩
    · rw [found.stop]
      omega
    · rw [found.stop]
      omega
  · obtain ⟨s', M, popped, rest, runs, grown, later, -⟩ :=
      extends_ (fun _ _ _ => True) ⟨fun _ _ _ _ _ _ => trivial, fun _ _ _ _ => trivial⟩ trivial
    obtain rfl : rest = [] := (List.append_eq_nil_iff.mp grown.nodes.symm).2
    have stopM := grown.heaps.stop
    rw [target] at stopM
    refine ⟨_, _, .block (ClientWrites.refl _ _) rfl PageAlignment.kmMin suffices_ (runs 0),
      ⟨M, client.grown grown later, ?_, ?_⟩, List.cons_subset_cons _ own⟩
    · rw [stopM]
      omega
    · rw [stopM]
      unfold pageSize at *
      omega

/-- So does `kalloc`, for a page. -/
theorem Roomy.page (roomy : Roomy k used stop) (padding : used < pageSize - 8)
    (fits : stop + 3 * pageSize ≤ 2 ^ 32) :
    ∃ v k', Answers (.block pageSize pageSize v) k k' ∧ v % pageSize = 0 ∧
      Roomy k' 8 (stop + 2 * pageSize) := by
  obtain ⟨⟨H, client, below, within⟩, own⟩ := roomy
  have memory := client.memory
  have rounded : roundBytes pageSize = pageSize := roundBytes_page
  have eight := H.stop_aligned
  have near : alignedEnd H.stop pageSize + 8 ≤ H.stop + pageSize := by
    unfold alignedEnd pageSize
    omega
  have notEight : alignedEnd H.stop pageSize ≠ H.stop + 8 := by
    unfold alignedEnd
    unfold pageSize at *
    omega
  have suffices_ : SpaceSuffices k.client.sys pageSize pageSize := by
    refine ⟨by decide, ?_⟩
    rw [memory.heap.ctx.atEnd, rounded]
    unfold pageSize at *
    omega
  rcases memory.alloc_cases PageAlignment.page suffices_ notEight with ⟨same, -⟩ | extends_
  · exact absurd same (by decide)
  · obtain ⟨s', M, popped, rest, runs, grown, later, -⟩ :=
      extends_ (fun _ _ _ => True) ⟨fun _ _ _ _ _ _ => trivial, fun _ _ _ _ => trivial⟩ trivial
    obtain rfl : rest = [] := (List.append_eq_nil_iff.mp grown.nodes.symm).2
    have stopM := grown.heaps.stop
    rw [rounded] at stopM
    have multiple : alignedEnd H.stop pageSize % pageSize = 0 := Nat.mul_mod_left _ _
    refine ⟨_, _, .block (ClientWrites.refl _ _) rfl PageAlignment.page suffices_ (runs 0),
      multiple, ⟨M, client.grown grown later, ?_, ?_⟩, List.cons_subset_cons _ own⟩
    · rw [stopM]
      unfold pageSize at *
      omega
    · rw [stopM]
      unfold pageSize at *
      omega

/-- `page_new` takes the next frame. -/
theorem Roomy.frame (roomy : Roomy k used stop) :
    ∃ pma k', Answers (.frame pma) k k' ∧ Roomy k' used stop := by
  obtain ⟨⟨H, client, below, within⟩, own⟩ := roomy
  obtain ⟨runs, memory⟩ := client.memory.bump
  have none : k.client.sys.pages.freeList = 0 :=
    PointerList.singly_nil.mp client.memory.heap.list
  have run : pageNew (0 + 2) k.client.sys = .ok (_, _) := runs 1
  exact ⟨_, _, .frame (ClientWrites.refl _ _) rfl (fun some => absurd none some) run,
    ⟨H, ⟨memory, client.live⟩, below, within⟩, own⟩

/-- `page_get_pma` reads the entry of a page of one's own. -/
theorem Roomy.pmaOf (roomy : Roomy k used stop) (member : c ∈ k.blocks)
    (multiple : c.vma % pageSize = 0) :
    ∃ pma k', Answers (.pmaOf c.vma pma) k k' ∧ Roomy k' used stop := by
  obtain ⟨⟨H, client, below, within⟩, own⟩ := roomy
  obtain ⟨lower, upper, -⟩ := H.range (client.block (own member)).live.1
  obtain ⟨e, entry, -⟩ := PageTables.mapped_iff.mp
    (client.memory.present c.vma multiple ((pageStart_le _).trans (by omega)) (by omega))
  exact ⟨_, _, .pmaOf (ClientWrites.refl _ _) rfl member rfl
    (pageGetPma_eq_ok.mpr ⟨e, entry, rfl, rfl⟩), ⟨H, client, below, within⟩, own⟩

/-- **The allocators answer `proc_register`** where there is room. -/
theorem Roomy.register (roomy : Roomy k used stop) (padding : used < pageSize - 8)
    (fits : stop + 5 * pageSize ≤ 2 ^ 32) :
    ∃ memory k', Requests k (registerRequests memory) k' ∧ Roomy k' 48 (stop + 3 * pageSize) := by
  have nodeBytes : roundBytes procPageNodeSize = 16 := by decide +kernel
  have pidBytes : roundBytes pidNodeSize = 8 := by decide +kernel
  obtain ⟨table, k₁, answers₁, multiple, roomy₁⟩ :=
    roomy.page padding (by unfold pageSize at *; omega)
  obtain ⟨tableNode, k₂, answers₂, roomy₂⟩ := roomy₁.block
    (show procPageNodeSize + 15 < 2 ^ 32 by decide) (by rw [nodeBytes]; unfold pageSize at *; omega) (by rw [nodeBytes]; decide)
  have own : (⟨table, roundBytes pageSize, false⟩ : Chunk) ∈ k₂.blocks := by
    rw [answers₂.given.1, answers₁.given.1]
    exact List.mem_cons_of_mem _ List.mem_cons_self
  obtain ⟨tablePma, k₃, answers₃, roomy₃⟩ := roomy₂.pmaOf own multiple
  obtain ⟨stackPma, k₄, answers₄, roomy₄⟩ := roomy₃.frame
  obtain ⟨queueNode, k₅, answers₅, roomy₅⟩ := roomy₄.block
    (show pidNodeSize + 15 < 2 ^ 32 by decide) (by rw [nodeBytes, pidBytes]; unfold pageSize at *; omega) (by rw [nodeBytes, pidBytes]; decide)
  rw [nodeBytes, pidBytes] at roomy₅
  exact ⟨⟨table, tableNode, tablePma, stackPma, queueNode⟩, k₅, .cons answers₁ (.cons answers₂
    (.cons answers₃ (.cons answers₄ (.cons answers₅ (.nil k₅))))),
    roomy₅.mono (by decide) (by unfold pageSize; omega)⟩

/-- **The allocators answer `proc_init`** where there is room for the process table and twelve
pages. -/
theorem Roomy.init {procSize : ℕ} (roomy : Roomy k used stop)
    (whole : pidMax * procSize % pageSize = 0) (request : pidMax * procSize + 15 < 2 ^ 32)
    (rounded : roundBytes (pidMax * procSize) = pidMax * procSize)
    (padding : used + 8 < pageSize - 8)
    (fits : stop + pidMax * procSize + 16 * pageSize ≤ 2 ^ 32) :
    ∃ procTable memory k', Requests k (procInitRequests procSize procTable memory) k' := by
  have pidBytes : roundBytes pidNodeSize = 8 := by decide +kernel
  have eight : (pidMax * procSize + 8) % pageSize = 8 := by
    unfold pageSize at *
    omega
  obtain ⟨procTable, k₁, answers₁, roomy₁⟩ := roomy.block request
    (by rw [rounded]; unfold pageSize at *; omega) (by rw [rounded, eight]; omega)
  rw [rounded, eight] at roomy₁
  obtain ⟨stackPage, k₂, answers₂, -, roomy₂⟩ := roomy₁.page padding (by unfold pageSize at *; omega)
  obtain ⟨kernelNode, k₃, answers₃, roomy₃⟩ := roomy₂.block
    (show pidNodeSize + 15 < 2 ^ 32 by decide) (by rw [pidBytes]; unfold pageSize at *; omega) (by rw [pidBytes]; decide)
  rw [pidBytes] at roomy₃
  obtain ⟨memory1, k₄, requests₁, roomy₄⟩ := roomy₃.register (by decide)
    (by unfold pageSize at *; omega)
  obtain ⟨memory2, k₅, requests₂, roomy₅⟩ := roomy₄.register (by decide)
    (by unfold pageSize at *; omega)
  obtain ⟨memory3, k₆, requests₃, -⟩ := roomy₅.register (by decide)
    (by unfold pageSize at *; omega)
  exact ⟨procTable, ⟨stackPage, kernelNode, memory1, memory2, memory3, 0xE0001000, 0xE0001010,
    0xE0001020⟩, k₆, .cons answers₁ (.cons answers₂ (.cons answers₃
    (requests₁.trans (requests₂.trans requests₃))))⟩

end Room

/-! ## At a small kernel -/

/-- `sizeof(proc_t)` -/
def procSize : ℕ := 96

/-- The requests of `proc_init` at the small kernel, and the theorem for the state they
leave. -/
theorem privateMemory_of_small_boot :
    ∃ k' made procTable memory h s p₁ p₂ p₃,
      (∃ t, initMapKernel smallLink (2 ^ 21) freshInit = .ok ((), t) ∧
        smallBoot.pages = handedTables smallLink t) ∧
      pageInitCleanup 2 (fun _ _ => 0) smallRegion smallBoot = .ok ((), k') ∧
      Requests ⟨⟨k', made⟩, [], [], []⟩ (procInitRequests procSize procTable memory) h ∧
      procInit memory zeroSched = .ok ((), s) ∧
      ∀ k, Relation.ReflTransGen ProcStep ⟨h, s, [(p₃, memory.memory3), (p₂, memory.memory2),
          (p₁, memory.memory1)]⟩ k →
        Relation.ReflTransGen SchedStep s k.sched ∧
          ∃ frees queue, PageNodes k.holder.client.sys frees ∧ SchedInv k.sched queue ∧
            (NextKept k.holder.client.sys.log → PrivateMemory k frees queue) := by
  obtain ⟨t, run, region, pages, ready⟩ := smallBoot_ready
  obtain ⟨boot, frames⟩ := ready smallBoot rfl rfl
  obtain ⟨k', _, booted, heapEnd, -, freeList, -, -⟩ := smallBoot_booted
  obtain ⟨k'', made, runs, client, final⟩ := privateMemory_of_boot boot smallRegion_fits frames
    (⟨rfl, rfl, rfl, rfl⟩ : Zeroed zeroSched)
  cases (booted.runs 0).symm.trans (runs 0)
  -- the heap of the small kernel has room for the requests
  obtain ⟨H, nodes, client⟩ := client
  have none : nodes = [] :=
    PointerList.Singly.unique client.memory.heap.list (PointerList.singly_nil.mpr freeList)
  subst none
  have stop : H.stop = 0xE0112008 := client.memory.heap.ctx.atEnd.symm.trans heapEnd
  have roomy : Roomy ⟨⟨k', made⟩, [], [], []⟩ 8 0xE0112008 :=
    ⟨⟨H, client, stop.le, by rw [stop]; decide⟩, List.nil_subset _⟩
  obtain ⟨procTable, memory, h, requests⟩ := roomy.init
    (show pidMax * procSize % pageSize = 0 by decide) (by decide) (by decide +kernel) (by decide) (by decide)
  obtain ⟨s, p₁, p₂, p₃, init, later⟩ := final _ .refl procSize procTable memory h requests
  exact ⟨k', made, procTable, memory, h, s, p₁, p₂, p₃, ⟨t, run, pages⟩, runs 0, requests, init,
    later⟩

end TrashOS
