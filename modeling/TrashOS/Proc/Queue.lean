import TrashOS.Lib.PointerList
import TrashOS.Proc.Sched
import Mathlib.Logic.Relation

/-!
# The process queue

The scheduling queue is a singly linked list with an end pointer.  `QueueOf s
nodes` says that the list of `s` visits exactly `nodes`; `SchedInv` adds what
ties the queue to the process table: the queued PIDs are the registered ones,
the head is the running one, and `proc_num` counts the others.

`procNext_stay` and `procNext_switch` are the two outcomes of a timer tick,
`procRegister_run` is the outcome of a registration.  From them `schedInv_of_run`
follows by induction over a run.

## Main definitions and results

* `QueueOf.rotate` — the three assignments that end a time slice go through a cycle, so a
  queue of one element is no special case.
* `procNext_cases` — everything a tick can do, guards included; each invariant of the
  scheduler is derived from it and not from the code again.
* `Registered` — what a registration leaves alone and what it writes.
* `procNext_keeps`, `procRegister_keeps` — the two steps; `Fresh` is what a registration
  needs of its nodes, and that a dead PID is left.
* `schedInv_of_init` — from `proc_init` over a zeroed table on, in every interleaving.
-/

namespace TrashOS

/-! ## The queue in memory -/

/-- The scheduling queue of `s` visits exactly `nodes`. -/
structure QueueOf (s : Sched) (nodes : List ℕ) : Prop where
  list : PointerList.Singly 0 (fun n => (s.pidNodes n).next) s.procQueueStart nodes
  last : nodes.getLast? = some s.procQueueEnd

/-- The PIDs of queue nodes. -/
def pidsOf (s : Sched) (nodes : List ℕ) : List ℕ := nodes.map fun n => (s.pidNodes n).pid

/-- The state after `procQueueRotate`. -/
def Sched.rotate (s : Sched) : Sched :=
  let linked := Function.update s.pidNodes s.procQueueEnd
    { s.pidNodes s.procQueueEnd with next := s.procQueueStart }
  { s with
    pidNodes := Function.update linked s.procQueueStart { linked s.procQueueStart with next := 0 }
    procQueueEnd := s.procQueueStart
    procQueueStart := (linked s.procQueueStart).next }

theorem procQueueRotate_run (s : Sched) : procQueueRotate s = .ok ((), s.rotate) := rfl

theorem rotate_pid (s : Sched) (n : ℕ) : (s.rotate.pidNodes n).pid = (s.pidNodes n).pid := by
  simp only [Sched.rotate, Function.update_apply]
  split_ifs <;> simp_all

/-- **Rotation.**  The temporary cycle `end->next = start` makes the relinking
work for a queue of one element too. -/
theorem QueueOf.rotate {s : Sched} {x : ℕ} {xs : List ℕ} (queue : QueueOf s (x :: xs)) :
    QueueOf s.rotate (xs ++ [x]) := by
  obtain ⟨start, nonnull, rest⟩ := queue.list
  have ends : (xs ++ [x]).getLast? = some s.rotate.procQueueEnd := by
    rw [List.getLast?_concat]
    simp [Sched.rotate, start]
  cases xs with
  | nil =>
      have same : s.procQueueEnd = s.procQueueStart := by
        have := queue.last
        simp only [List.getLast?_singleton, Option.some.injEq] at this
        rw [← this, start]
      refine ⟨?_, ends⟩
      simp [Sched.rotate, same, start, nonnull]
  | cons y ys =>
      have last : (y :: ys).getLast? = some s.procQueueEnd := by simpa using queue.last
      have fresh := (List.nodup_cons.mp queue.list.nodup).1
      have differs : x ≠ s.procQueueEnd := fun eq => fresh (eq ▸ List.mem_of_getLast? last)
      have head : (s.pidNodes x).next = y := rest.1
      refine ⟨?_, ends⟩
      have start' : s.rotate.procQueueStart = y := by
        simp [Sched.rotate, start, Function.update_of_ne differs, head]
      rw [start']
      rw [show (fun n => (s.pidNodes n).next) x = y from head] at rest
      refine rest.snoc last nonnull ?_ ?_ fun n member other => ?_
      · simp [Sched.rotate, start, Function.update_of_ne differs.symm]
      · simp [Sched.rotate, start]
      · have notX : n ≠ x := fun eq => fresh (eq ▸ member)
        simp [Sched.rotate, start, Function.update_of_ne notX, Function.update_of_ne other]

/-! ## Walking a list of page tables -/

/-- The list of page tables of `pid` visits exactly `nodes`, which the walk can
finish. -/
structure PageList (s : Sched) (pid : ℕ) (nodes : List ℕ) : Prop where
  list : PointerList.Singly 0 (fun n => (s.pageNodes n).next) (s.procTable pid).pageTables nodes
  short : nodes.length < walkFuel

/-- The directory and the lookup table. -/
structure Directory where
  entry : ℕ → ℕ
  table : ℕ → ℕ

/-- `page_set_dir_entry` on a directory. -/
def Directory.set (d : Directory) (idx tableVma entry : ℕ) : Directory :=
  ⟨Function.update d.entry idx entry, Function.update d.table idx tableVma⟩

/-- The directory of a state. -/
def Sched.directory (s : Sched) : Directory := ⟨s.pageDir, s.pageTableLookup⟩

/-- The state with another directory. -/
def Sched.withDirectory (s : Sched) (d : Directory) : Sched :=
  { s with pageDir := d.entry, pageTableLookup := d.table }

/-- What mapping the nodes of a list makes of a directory. -/
def Directory.install (d : Directory) (nodes : List ProcPageNode) : Directory :=
  nodes.foldl (fun d node => d.set node.pageDirIdx node.pageTableVma node.pageDirEntry) d

/-- What unmapping the nodes of a list makes of a directory. -/
def Directory.wipe (d : Directory) (nodes : List ProcPageNode) : Directory :=
  nodes.foldl (fun d node => d.set node.pageDirIdx 0 0) d

theorem procMemMapNodes_run {fuel n : ℕ} {nodes : List ℕ} {s : Sched}
    (list : PointerList.Singly 0 (fun n => (s.pageNodes n).next) n nodes)
    (enough : nodes.length < fuel) :
    procMemMapNodes fuel n s
      = .ok ((), s.withDirectory (s.directory.install (nodes.map s.pageNodes))) := by
  induction nodes generalizing fuel n s with
  | nil =>
      obtain ⟨fuel, rfl⟩ : ∃ k, fuel = k + 1 := ⟨fuel - 1, by simp at enough; omega⟩
      have null : n = 0 := list
      unfold procMemMapNodes
      rw [if_pos null]
      rfl
  | cons x xs ih =>
      obtain ⟨fuel, rfl⟩ : ∃ k, fuel = k + 1 := ⟨fuel - 1, by simp at enough; omega⟩
      obtain ⟨rfl, nonnull, rest⟩ := list
      unfold procMemMapNodes
      rw [if_neg nonnull, Prog.bind_of_ok rfl, Prog.bind_of_ok rfl]
      exact ih (s := s.withDirectory (s.directory.set (s.pageNodes n).pageDirIdx
        (s.pageNodes n).pageTableVma (s.pageNodes n).pageDirEntry)) rest
        (by simp at enough; omega)

theorem procMemUnmapNodes_run {fuel n : ℕ} {nodes : List ℕ} {s : Sched}
    (list : PointerList.Singly 0 (fun n => (s.pageNodes n).next) n nodes)
    (enough : nodes.length < fuel) :
    procMemUnmapNodes fuel n s
      = .ok ((), s.withDirectory (s.directory.wipe (nodes.map s.pageNodes))) := by
  induction nodes generalizing fuel n s with
  | nil =>
      obtain ⟨fuel, rfl⟩ : ∃ k, fuel = k + 1 := ⟨fuel - 1, by simp at enough; omega⟩
      have null : n = 0 := list
      unfold procMemUnmapNodes
      rw [if_pos null]
      rfl
  | cons x xs ih =>
      obtain ⟨fuel, rfl⟩ : ∃ k, fuel = k + 1 := ⟨fuel - 1, by simp at enough; omega⟩
      obtain ⟨rfl, nonnull, rest⟩ := list
      unfold procMemUnmapNodes
      rw [if_neg nonnull, Prog.bind_of_ok rfl, Prog.bind_of_ok rfl]
      exact ih (s := s.withDirectory (s.directory.set (s.pageNodes n).pageDirIdx 0 0)) rest
        (by simp at enough; omega)

/-! ## A timer tick -/

/-- The process table after the current process was charged for the tick. -/
def chargedTable (s : Sched) : ℕ → Proc :=
  Function.update s.procTable s.pid
    { s.procTable s.pid with execCount := decrement (s.procTable s.pid).execCount }

/-- The process table while no process is running. -/
def pausedTable (s : Sched) : ℕ → Proc :=
  Function.update s.procTable s.pid
    { s.procTable s.pid with
      execCount := (s.procTable s.pid).priority
      state := .active }

/-- The process table after a switch from `s.pid` to `next`. -/
def switchedTable (s : Sched) (next : ℕ) : ℕ → Proc :=
  Function.update (pausedTable s) next { pausedTable s next with state := .running }

/-- Scheduling writes the counts and the states of processes, and no other field. -/
def Unscheduled {β : Type} (f : Proc → β) : Prop :=
  ∀ p count state, f { p with execCount := count, state := state } = f p

theorem unscheduled_pageTables : Unscheduled Proc.pageTables := fun _ _ _ => rfl

theorem unscheduled_ctxt : Unscheduled Proc.ctxt := fun _ _ _ => rfl

theorem chargedTable_field {β : Type} {f : Proc → β}
    (fixed : ∀ p count, f { p with execCount := count } = f p) (s : Sched) (p : ℕ) :
    f (chargedTable s p) = f (s.procTable p) := by
  unfold chargedTable
  rw [Function.update_apply]
  split_ifs with same
  · rw [same, fixed]
  · rfl

theorem pausedTable_field {β : Type} {f : Proc → β} (fixed : Unscheduled f) (s : Sched) (p : ℕ) :
    f (pausedTable s p) = f (s.procTable p) := by
  unfold pausedTable
  rw [Function.update_apply]
  split_ifs with same
  · rw [same]
    exact fixed _ _ _
  · rfl

theorem switchedTable_field {β : Type} {f : Proc → β} (fixed : Unscheduled f) (s : Sched)
    (next p : ℕ) : f (switchedTable s next p) = f (s.procTable p) := by
  unfold switchedTable
  rw [Function.update_apply]
  split_ifs with same
  · rw [same, ← pausedTable_field fixed]
    exact fixed (pausedTable s next) _ _
  · exact pausedTable_field fixed s p

/-- A tick within a time slice only charges the current process. -/
theorem procNext_stay {s : Sched} (more : decrement (s.procTable s.pid).execCount ≠ 0) :
    procNext s = .ok ((), { s with procTable := chargedTable s }) := by
  have count : (chargedTable s s.pid).execCount = decrement (s.procTable s.pid).execCount := by
    simp [chargedTable]
  unfold procNext
  rw [Prog.bind_of_ok (m := getPid) rfl, Prog.bind_of_ok (m := modifyProc _ _) rfl,
    Prog.bind_of_ok (a := (chargedTable s s.pid).execCount) (by rfl), count, if_neg more]
  rfl

/-- A tick that ends a time slice: the head of the queue goes to the end, its
address space is wiped, and the new head with its address space takes over. -/
theorem procNext_switch {s : Sched} {x next : ℕ} {xs tables tables' : List ℕ}
    (done : decrement (s.procTable s.pid).execCount = 0)
    (queue : QueueOf s (x :: xs)) (head : (pidsOf s (xs ++ [x])).head? = some next)
    (leaving : PageList s s.pid tables) (entering : PageList s next tables') :
    ∃ s', procNext s = .ok ((), s') ∧ QueueOf s' (xs ++ [x]) ∧
      (∀ n, (s'.pidNodes n).pid = (s.pidNodes n).pid) ∧ s'.pid = next ∧
      s'.procTable = switchedTable s next ∧
      s'.directory = (s.directory.wipe (tables.map s.pageNodes)).install (tables'.map s.pageNodes) ∧
      s'.procNum = s.procNum ∧ s'.pageNodes = s.pageNodes ∧ s'.nextPid = s.nextPid ∧
      s'.esp0 = s.esp0 := by
  let s₁ : Sched := { s with procTable := chargedTable s }
  let s₂ : Sched := { s.rotate with procTable := pausedTable s }
  let s₃ : Sched := s₂.withDirectory (s.directory.wipe (tables.map s.pageNodes))
  let s₄ : Sched := { s₃ with pid := next }
  let s₅ : Sched := s₄.withDirectory (s₄.directory.install (tables'.map s.pageNodes))
  have count : (chargedTable s s.pid).execCount = decrement (s.procTable s.pid).execCount := by
    simp [chargedTable]
  let r : Sched :=
    { s with
      procTable := Function.update (chargedTable s) s.pid
        { chargedTable s s.pid with execCount := (chargedTable s s.pid).priority } }
  have pause : modifyProc s.pid (fun p => { p with state := .active }) r.rotate
      = .ok ((), s₂) := by
    have table : Function.update r.procTable s.pid { r.procTable s.pid with state := .active }
        = pausedTable s := by
      simp [r, chargedTable, pausedTable]
    change Except.ok ((), ({ s.rotate with
      procTable := Function.update r.procTable s.pid
        { r.procTable s.pid with state := .active } } : Sched)) = _
    rw [table]
  have rotated := queue.rotate
  have newHead : (s₂.pidNodes s₂.procQueueStart).pid = next := by
    have start : (xs ++ [x]).head? = some s.rotate.procQueueStart := by
      have list := rotated.list
      cases nodes : xs ++ [x] with
      | nil => simp at nodes
      | cons y ys =>
          rw [nodes] at list
          rw [list.1]
          rfl
    rw [pidsOf, List.head?_map, start] at head
    change (s.rotate.pidNodes s.rotate.procQueueStart).pid = next
    rw [rotate_pid]
    simpa using head
  have unmap : procMemUnmap s.pid s₂ = .ok ((), s₃) := by
    unfold procMemUnmap
    rw [Prog.bind_of_ok (a := (s.procTable s.pid).pageTables)
      (by rw [← pausedTable_field unscheduled_pageTables]; rfl)]
    exact procMemUnmapNodes_run (s := s₂) leaving.list leaving.short
  have map : procMemMap next s₄ = .ok ((), s₅) := by
    unfold procMemMap
    rw [Prog.bind_of_ok (a := (s.procTable next).pageTables)
      (by rw [← pausedTable_field unscheduled_pageTables]; rfl)]
    exact procMemMapNodes_run (s := s₄) entering.list entering.short
  refine ⟨{ s₅ with procTable := switchedTable s next }, ?_, ⟨rotated.list, rotated.last⟩,
    rotate_pid s, rfl, rfl, rfl, rfl, rfl, rfl, rfl⟩
  unfold procNext
  rw [Prog.bind_of_ok (m := getPid) rfl,
    Prog.bind_of_ok (m := modifyProc _ _) (t := s₁) rfl,
    Prog.bind_of_ok (a := (chargedTable s s.pid).execCount) (by rfl), count, if_pos done]
  unfold procSwitch
  rw [Prog.bind_of_ok (m := getPid) (s := s₁) (a := s.pid) rfl, Prog.bind_of_ok (t := r) rfl,
    Prog.bind_of_ok (procQueueRotate_run r), Prog.bind_of_ok pause, Prog.bind_of_ok unmap,
    Prog.bind_of_ok (s := s₃) (a := s₂.procQueueStart) (t := s₃) rfl,
    Prog.bind_of_ok (a := next) (t := s₃) (by rw [← newHead]; rfl),
    Prog.bind_of_ok (t := s₄) rfl, Prog.bind_of_ok map]
  rfl

/-! ## Registration -/

/-- `proc_new_pid` takes the next PID if it is dead. -/
theorem procNewPid_take {fuel : ℕ} {s : Sched} (dead : (s.procTable s.nextPid).state = .dead) :
    procNewPid (fuel + 1) s = .ok (s.nextPid, { s with nextPid := (s.nextPid + 1) % pidMax }) := by
  have free : procPidTaken s s.nextPid = false := by simp [procPidTaken, dead]
  unfold procNewPid
  rw [Prog.bind_of_ok (a := s.nextPid) rfl, Prog.bind_of_ok (a := false) (by rw [← free]; rfl),
    Prog.bind_of_ok rfl]
  rfl

/-- Otherwise it goes on with the one after. -/
theorem procNewPid_skip {fuel : ℕ} {s : Sched} (taken : (s.procTable s.nextPid).state ≠ .dead) :
    procNewPid (fuel + 1) s = procNewPid fuel { s with nextPid := (s.nextPid + 1) % pidMax } := by
  have busy : procPidTaken s s.nextPid = true := by simp [procPidTaken, taken]
  conv_lhs => unfold procNewPid
  rw [Prog.bind_of_ok (a := s.nextPid) rfl, Prog.bind_of_ok (a := true) (by rw [← busy]; rfl),
    Prog.bind_of_ok rfl, if_pos rfl]

/-- `proc_new_pid` walks up to the next dead PID, around the end of `pid_t` if
need be.  The induction is on the distance to a dead PID. -/
theorem procNewPid_run {distance fuel : ℕ} {s : Sched} (enough : distance < fuel)
    (word : s.nextPid < pidMax)
    (dead : (s.procTable ((s.nextPid + distance) % pidMax)).state = .dead) :
    ∃ pid, procNewPid fuel s = .ok (pid, { s with nextPid := (pid + 1) % pidMax }) ∧
      pid < pidMax ∧ (s.procTable pid).state = .dead := by
  induction distance generalizing fuel s with
  | zero =>
      obtain ⟨fuel, rfl⟩ : ∃ k, fuel = k + 1 := ⟨fuel - 1, by omega⟩
      rw [Nat.add_zero, Nat.mod_eq_of_lt word] at dead
      exact ⟨s.nextPid, procNewPid_take dead, word, dead⟩
  | succ distance ih =>
      obtain ⟨fuel, rfl⟩ : ∃ k, fuel = k + 1 := ⟨fuel - 1, by omega⟩
      by_cases here : (s.procTable s.nextPid).state = .dead
      · exact ⟨s.nextPid, procNewPid_take here, word, here⟩
      · have further : ((s.nextPid + 1) % pidMax + distance) % pidMax
            = (s.nextPid + (distance + 1)) % pidMax := by
          rw [Nat.mod_add_mod]
          congr 1
          omega
        obtain ⟨pid, run, small, dead'⟩ :=
          ih (s := { s with nextPid := (s.nextPid + 1) % pidMax }) (show distance < fuel by omega)
            (Nat.mod_lt _ (by decide)) (by rw [← dead]; simp only [further])
        exact ⟨pid, (procNewPid_skip here).trans run, small, dead'⟩

/-- The node store after `node->pid = pid` and `node->next = NULL`. -/
def lastNode (store : ℕ → PidNode) (node pid : ℕ) : ℕ → PidNode :=
  let named := Function.update store node { store node with pid := pid }
  Function.update named node { named node with next := 0 }

@[simp] theorem lastNode_self (store : ℕ → PidNode) (node pid : ℕ) :
    lastNode store node pid node = ⟨0, pid⟩ := by
  simp [lastNode]

theorem lastNode_of_ne {store : ℕ → PidNode} {node pid n : ℕ} (differs : n ≠ node) :
    lastNode store node pid n = store n := by
  simp [lastNode, Function.update_of_ne differs]

/-- `proc_queue_add` appends a node with the PID, to an empty queue too. -/
theorem procQueueAdd_run (pid : ℕ) {s : Sched} {nodes : List ℕ} {node : ℕ}
    (queue : QueueOf s nodes ∨ nodes = [] ∧ s.procQueueEnd = 0) (fresh : node ∉ nodes)
    (nonnull : node ≠ 0) :
    ∃ store start, procQueueAdd node pid s
        = .ok ((), { s with
            pidNodes := store
            procQueueStart := start
            procQueueEnd := node
            procNum := (s.procNum + 1) % pidMax }) ∧
      PointerList.Singly 0 (fun n => (store n).next) start (nodes ++ [node]) ∧
      (∀ n ∈ nodes, (store n).pid = (s.pidNodes n).pid) ∧ (store node).pid = pid := by
  rcases queue with queue | ⟨rfl, empty⟩
  · have nonempty : s.procQueueEnd ≠ 0 :=
      queue.list.ne_null (List.mem_of_getLast? queue.last)
    have differs : node ≠ s.procQueueEnd := fun eq =>
      fresh (eq ▸ List.mem_of_getLast? queue.last)
    refine ⟨lastNode (Function.update s.pidNodes s.procQueueEnd
      { s.pidNodes s.procQueueEnd with next := node }) node pid, s.procQueueStart, ?_, ?_, ?_, ?_⟩
    · have link : procQueueLink node s = .ok ((), { s with
          procQueueEnd := node
          pidNodes := Function.update s.pidNodes s.procQueueEnd
            { s.pidNodes s.procQueueEnd with next := node } }) := by
        unfold procQueueLink
        rw [Prog.bind_of_ok (s := s) (a := s.procQueueEnd) rfl, if_pos nonempty]
        rfl
      unfold procQueueAdd
      rw [Prog.bind_of_ok link]
      rfl
    · refine queue.list.snoc queue.last nonnull ?_ ?_ fun n member other => ?_
      · simp [lastNode_of_ne differs.symm]
      · simp
      · have notNode : n ≠ node := fun eq => fresh (eq ▸ member)
        simp [lastNode_of_ne notNode, Function.update_of_ne other]
    · intro n member
      have notNode : n ≠ node := fun eq => fresh (eq ▸ member)
      rw [lastNode_of_ne notNode, Function.update_apply]
      split_ifs with same
      · rw [same]
      · rfl
    · simp
  · refine ⟨lastNode s.pidNodes node pid, node, ?_, by simp [nonnull], by simp, by simp⟩
    have link : procQueueLink node s
        = .ok ((), { s with procQueueStart := node, procQueueEnd := node }) := by
      unfold procQueueLink
      rw [Prog.bind_of_ok (s := s) (a := s.procQueueEnd) rfl, if_neg (by simpa using empty)]
      rfl
    unfold procQueueAdd
    rw [Prog.bind_of_ok link]
    rfl

/-- The process table after `proc_register`. -/
def registeredTable (s : Sched) (pid : ℕ) (memory : RegisterMemory) (entryPoint priority : ℕ) :
    ℕ → Proc :=
  Function.update s.procTable pid
    { pageTables := memory.tableNode
      state := .active
      ctxt := initialCtxt entryPoint (s.procTable pid).ctxt
      execCount := priority
      priority := priority
      ppid := (s.procTable pid).ppid }

/-- The flags of user pages and of their tables. -/
def userDataFlags : ℕ := pagePublic ||| pageWrite ||| pagePresent

/-- The index of the stack page in its table. -/
def stackIdx : ℕ := Word32.sub kernelStartVma pageSize >>> 12 &&& 0x3ff

/-- The node `proc_register` puts before the page tables of the process. -/
def stackNode (s : Sched) (pid : ℕ) (memory : RegisterMemory) : ProcPageNode where
  next := (s.procTable pid).pageTables
  pageDirIdx := Word32.sub kernelStartVma pageSize >>> 22
  pageTableVma := memory.table
  pageDirEntry := memory.tablePma ||| userDataFlags

/-- What `proc_register` does to a state whose queue visits `nodes`. -/
structure Registered (s s' : Sched) (nodes : List ℕ) (memory : RegisterMemory)
    (entryPoint priority pid : ℕ) : Prop where
  word : pid < pidMax
  dead : (s.procTable pid).state = .dead
  chosen : procNewPid (pidMax + 1) s = .ok (pid, { s with nextPid := (pid + 1) % pidMax })
  table : s'.procTable = registeredTable s pid memory entryPoint priority
  queue : QueueOf s' (nodes ++ [memory.queueNode])
  pids : pidsOf s' (nodes ++ [memory.queueNode]) = pidsOf s nodes ++ [pid]
  current : s'.pid = s.pid
  next : s'.nextPid = (pid + 1) % pidMax
  num : s'.procNum = (s.procNum + 1) % pidMax
  pageNode : s'.pageNodes memory.tableNode = stackNode s pid memory
  otherNodes : ∀ n, n ≠ memory.tableNode → s'.pageNodes n = s.pageNodes n
  userTables : s'.userTables = Function.update s.userTables memory.table
    (Function.update (s.userTables memory.table) stackIdx (memory.stackPma ||| userDataFlags))
  directory : s'.directory = s.directory
  stack : s'.esp0 = s.esp0

theorem Registered.next_lt {s s' : Sched} {nodes : List ℕ} {memory : RegisterMemory}
    {entryPoint priority pid : ℕ} (reg : Registered s s' nodes memory entryPoint priority pid) :
    s'.nextPid < pidMax := by
  rw [reg.next]
  exact Nat.mod_lt _ (by decide)

/-- A registration appends a dead PID to the queue. -/
theorem procRegister_run (memory : RegisterMemory) (entryPoint priority : ℕ) {s : Sched}
    {nodes : List ℕ} (queue : QueueOf s nodes) (fresh : memory.queueNode ∉ nodes)
    (nonnull : memory.queueNode ≠ 0) (word : s.nextPid < pidMax)
    (remains : ∃ p < pidMax, (s.procTable p).state = .dead) :
    ∃ pid s', procRegister memory entryPoint priority s = .ok (pid, s') ∧
      Registered s s' nodes memory entryPoint priority pid := by
  obtain ⟨p, small, dead⟩ := remains
  have reach : (s.nextPid + (p + pidMax - s.nextPid) % pidMax) % pidMax = p := by
    rw [Nat.add_mod_mod, show s.nextPid + (p + pidMax - s.nextPid) = p + pidMax by omega,
      Nat.add_mod_right, Nat.mod_eq_of_lt small]
  obtain ⟨pid, newPid, wordPid, deadPid⟩ :=
    procNewPid_run (show (p + pidMax - s.nextPid) % pidMax < pidMax + 1 by
        have := Nat.mod_lt (p + pidMax - s.nextPid) (show 0 < pidMax by decide)
        omega)
      word (by rw [reach]; exact dead)
  let s₁ : Sched := { s with
    nextPid := (pid + 1) % pidMax
    procTable := registeredTable s pid memory entryPoint priority
    pageNodes := Function.update s.pageNodes memory.tableNode (stackNode s pid memory)
    userTables := Function.update s.userTables memory.table
      (Function.update (s.userTables memory.table) stackIdx (memory.stackPma ||| userDataFlags)) }
  obtain ⟨store, start, add, list, pids, last⟩ :=
    procQueueAdd_run pid (s := s₁) (Or.inl ⟨queue.list, queue.last⟩) fresh nonnull
  let s₂ : Sched := { s₁ with
    pidNodes := store
    procQueueStart := start
    procQueueEnd := memory.queueNode
    procNum := (s.procNum + 1) % pidMax }
  refine ⟨pid, s₂, ?_, ⟨wordPid, deadPid, newPid, rfl, ⟨list, List.getLast?_concat⟩, ?_, rfl, rfl,
    rfl, Function.update_self _ _ _, fun n differs => ?_, rfl, rfl, rfl⟩⟩
  · let p₁ : Proc := { s.procTable pid with
      ctxt := initialCtxt entryPoint (s.procTable pid).ctxt
      state := .active
      execCount := priority
      priority := priority }
    let t₁ : Sched := { s with
      nextPid := (pid + 1) % pidMax
      procTable := Function.update s.procTable pid p₁ }
    have entry : t₁.procTable pid = p₁ := Function.update_self _ _ _
    have readEsp : (Prog.read fun s : Sched => (s.procTable pid).ctxt.esp) t₁
        = (.ok (kernelStartVma, t₁) : Except Stop (ℕ × Sched)) := by
      rw [Prog.read_run, entry]
      rfl
    have page : procPageTableRegister memory.tableNode memory.tablePma pid memory.table
        (Word32.sub kernelStartVma pageSize) (pagePublic ||| pageWrite ||| pagePresent) t₁
        = .ok ((), { s₁ with userTables := s.userTables }) := by
      have table : Function.update t₁.procTable pid
          { t₁.procTable pid with pageTables := memory.tableNode }
          = registeredTable s pid memory entryPoint priority := by
        simp [t₁, p₁, registeredTable]
      unfold procPageTableRegister
      rw [Prog.bind_of_ok (a := (s.procTable pid).pageTables) (t := t₁)
        (by rw [Prog.read_run, entry])]
      rw [Prog.bind_of_ok rfl]
      unfold modifyProc
      rw [Prog.update_run]
      simp only [table]
      rfl
    unfold procRegister
    rw [Prog.bind_of_ok newPid, Prog.bind_of_ok (t := t₁) rfl, Prog.bind_of_ok readEsp,
      Prog.bind_of_ok page, Prog.bind_of_ok (m := procPageRegister _ _ _) (t := s₁) rfl,
      Prog.bind_of_ok (t := s₂) add]
    rfl
  · rw [pidsOf, List.map_append, List.map_singleton]
    congr 1
    · exact List.map_congr_left pids
    · exact congrArg (fun x => [x]) last
  · exact Function.update_of_ne differs _ _

/-! ## The invariant -/

/-- **The scheduler invariant.** -/
structure SchedInv (s : Sched) (nodes : List ℕ) : Prop where
  /-- The queue is a finite acyclic list whose last node is `proc_queue_end`. -/
  queue : QueueOf s nodes
  /-- It holds every registered PID exactly once and no other. -/
  nodup : (pidsOf s nodes).Nodup
  registered : ∀ p, p ∈ pidsOf s nodes ↔ (s.procTable p).state ≠ .dead
  /-- Its head is the current process. -/
  head : (pidsOf s nodes).head? = some s.pid
  /-- The current process is the only one running. -/
  running : (s.procTable s.pid).state = .running
  active : ∀ p ∈ pidsOf s nodes, p ≠ s.pid → (s.procTable p).state = .active
  /-- `proc_num` counts the processes other than the kernel. -/
  count : s.procNum + 1 = nodes.length

/-- What the scheduler relies on besides: PIDs are 16-bit, every process has a
list of page tables that ends, and a dead one has none. -/
structure SchedBase (s : Sched) (nodes : List ℕ) : Prop where
  word : ∀ p ∈ pidsOf s nodes, p < pidMax
  next : s.nextPid < pidMax
  lists : ∀ p, ∃ tables, PageList s p tables
  unused : ∀ p, (s.procTable p).state = .dead → (s.procTable p).pageTables = 0

/-- The nodes a registration gets from `kmalloc` are not in use. -/
structure Fresh (s : Sched) (memory : RegisterMemory) : Prop where
  queueNode : ∀ nodes, QueueOf s nodes → memory.queueNode ∉ nodes
  queueNull : memory.queueNode ≠ 0
  tableNode : ∀ p tables, PageList s p tables → memory.tableNode ∉ tables
  tableNull : memory.tableNode ≠ 0

/-- One event: a timer tick, or a registration while a dead PID remains. -/
inductive SchedStep : Sched → Sched → Prop
  | tick {s s' : Sched} (returned : procNext s = .ok ((), s')) : SchedStep s s'
  | register {s s' : Sched} {memory : RegisterMemory} {entryPoint priority pid : ℕ}
      (fresh : Fresh s memory) (remains : ∃ p < pidMax, (s.procTable p).state = .dead)
      (returned : procRegister memory entryPoint priority s = .ok (pid, s')) : SchedStep s s'

/-! ## Steps keep the invariant -/

theorem PageList.congr {s s' : Sched} {p : ℕ} {tables : List ℕ} (list : PageList s p tables)
    (nodes : s'.pageNodes = s.pageNodes)
    (head : (s'.procTable p).pageTables = (s.procTable p).pageTables) : PageList s' p tables := by
  refine ⟨?_, list.short⟩
  rw [nodes, head]
  exact list.list

theorem switchedTable_state (s : Sched) (next p : ℕ) :
    (switchedTable s next p).state
      = if p = next then .running else if p = s.pid then .active else (s.procTable p).state := by
  unfold switchedTable pausedTable
  by_cases isNext : p = next
  · simp [isNext]
  · rw [Function.update_of_ne isNext, if_neg isNext]
    by_cases isPid : p = s.pid
    · simp [isPid]
    · rw [Function.update_of_ne isPid, if_neg isPid]

variable {s s' : Sched} {nodes : List ℕ}

/-- The running process is not dead, so it is queued. -/
theorem SchedInv.pid_mem (inv : SchedInv s nodes) : s.pid ∈ pidsOf s nodes :=
  (inv.registered s.pid).mpr (by simp [inv.running])

theorem pidsOf_perm_rotate (s : Sched) (x : ℕ) (xs : List ℕ) :
    (pidsOf s (xs ++ [x])).Perm (pidsOf s (x :: xs)) :=
  (List.perm_append_singleton x xs).map _

/-- The process behind the head of the queue is the head itself only if the
kernel is alone. -/
theorem SchedInv.next_eq_iff {x next : ℕ} {xs : List ℕ} (inv : SchedInv s (x :: xs))
    (head : (pidsOf s (xs ++ [x])).head? = some next) : next = s.pid ↔ s.procNum = 0 := by
  have count := inv.count
  have first : (s.pidNodes x).pid = s.pid := by simpa [pidsOf] using inv.head
  cases xs with
  | nil =>
      simp only [pidsOf, List.nil_append, List.map_cons, List.head?_cons, Option.some_inj] at head
      simp only [List.length_singleton] at count
      simp [← head, first]
      omega
  | cons y ys =>
      have other : (s.pidNodes y).pid = next := by simpa [pidsOf] using head
      have differs : (s.pidNodes x).pid ≠ (s.pidNodes y).pid := by
        have nodup := inv.nodup
        simp only [pidsOf, List.map_cons, List.nodup_cons, List.mem_cons, not_or] at nodup
        exact nodup.1.1
      rw [first, other] at differs
      simp only [List.length_cons] at count
      constructor
      · intro same
        exact absurd same.symm differs
      · intro alone
        omega

/-- What a timer tick does to the table and the lists of page tables, which
stay, to the directory, and to the current process. -/
structure Ticked (s s' : Sched) (nodes nodes' : List ℕ) : Prop where
  pids : (pidsOf s' nodes').Perm (pidsOf s nodes)
  pageNodes : s'.pageNodes = s.pageNodes
  pageTables : ∀ p, (s'.procTable p).pageTables = (s.procTable p).pageTables
  directory : ∀ tables tables', PageList s s.pid tables → PageList s s'.pid tables' →
    s'.directory = (s.directory.wipe (tables.map s.pageNodes)).install (tables'.map s.pageNodes) ∨
      (s'.pid = s.pid ∧ s'.directory = s.directory)
  ctxts : ∀ p, (s'.procTable p).ctxt = (s.procTable p).ctxt
  stack : s'.esp0 = s.esp0
  num : s'.procNum = s.procNum
  stays : s'.pid = s.pid ↔ decrement (s.procTable s.pid).execCount ≠ 0 ∨ s.procNum = 0

/-- **A timer tick** returns and keeps the invariant. -/
theorem procNext_keeps (inv : SchedInv s nodes) (base : SchedBase s nodes) :
    ∃ s' nodes', procNext s = .ok ((), s') ∧ Ticked s s' nodes nodes' ∧
      SchedInv s' nodes' ∧ SchedBase s' nodes' := by
  by_cases more : decrement (s.procTable s.pid).execCount = 0
  · obtain ⟨x, xs, rfl⟩ : ∃ x xs, nodes = x :: xs := by
      cases nodes with
      | nil => exact absurd inv.queue.last (by simp)
      | cons x xs => exact ⟨x, xs, rfl⟩
    have perm := pidsOf_perm_rotate s x xs
    obtain ⟨next, head⟩ : ∃ next, (pidsOf s (xs ++ [x])).head? = some next := by
      cases tail : pidsOf s (xs ++ [x]) with
      | nil => simp [pidsOf] at tail
      | cons next _ => exact ⟨next, rfl⟩
    have memNext : next ∈ pidsOf s (x :: xs) := perm.mem_iff.mp (List.mem_of_head? head)
    obtain ⟨tables, leaving⟩ := base.lists s.pid
    obtain ⟨tables', entering⟩ := base.lists next
    obtain ⟨s', run, queue', pids', pid', table', directory', num', pageNodes', nextPid', esp0'⟩ :=
      procNext_switch more inv.queue head leaving entering
    have same : pidsOf s' (xs ++ [x]) = pidsOf s (xs ++ [x]) :=
      List.map_congr_left fun n _ => pids' n
    have state' : ∀ p, (s'.procTable p).state
        = if p = next then .running else if p = s.pid then .active else (s.procTable p).state :=
      fun p => by rw [table', switchedTable_state]
    have member : ∀ p, p ∈ pidsOf s' (xs ++ [x]) ↔ p ∈ pidsOf s (x :: xs) := fun p => by
      rw [same, perm.mem_iff]
    have ticked : Ticked s s' (x :: xs) (xs ++ [x]) := by
      refine ⟨same ▸ perm, pageNodes',
        fun p => by rw [table', switchedTable_field unscheduled_pageTables],
        fun list list' left right => Or.inl ?_,
        fun p => by rw [table', switchedTable_field unscheduled_ctxt], esp0', num', ?_⟩
      · rw [pid'] at right
        rw [left.list.unique leaving.list, right.list.unique entering.list]
        exact directory'
      · rw [pid', inv.next_eq_iff head]
        simp [more]
    refine ⟨s', xs ++ [x], run, ticked,
      ⟨queue', ?_, fun p => ?_, ?_, ?_, fun p memP other => ?_, ?_⟩, ⟨fun p memP => base.word p ((member p).mp memP), by rw [nextPid']; exact base.next,
        fun p => ?_, fun p dead => ?_⟩⟩
    · rw [same]
      exact perm.nodup_iff.mpr inv.nodup
    · rw [member, inv.registered, state']
      split_ifs with isNext isPid
      · simpa [isNext] using (inv.registered next).mp memNext
      · simpa [isPid] using (inv.registered s.pid).mp inv.pid_mem
      · rfl
    · rw [same, head, pid']
    · rw [pid', state', if_pos rfl]
    · have notNext : p ≠ next := fun eq => other (eq.trans pid'.symm)
      rw [state', if_neg notNext]
      split_ifs with isPid
      · rfl
      · exact inv.active p ((member p).mp memP) isPid
    · rw [num', inv.count]
      simp
    · obtain ⟨list, found⟩ := base.lists p
      exact ⟨list,
        found.congr pageNodes' (by rw [table', switchedTable_field unscheduled_pageTables])⟩
    · rw [state'] at dead
      rw [table', switchedTable_field unscheduled_pageTables]
      split_ifs at dead
      exact base.unused p dead
  · refine ⟨_, nodes, procNext_stay more, ⟨List.Perm.refl _, rfl,
      fun p => chargedTable_field (fun _ _ => rfl) s p, fun _ _ _ _ => Or.inr ⟨rfl, rfl⟩,
      fun p => chargedTable_field (fun _ _ => rfl) s p, rfl, rfl, by simp [more]⟩,
      ⟨⟨inv.queue.list, inv.queue.last⟩, inv.nodup,
      fun p => ?_, inv.head, ?_, fun p memP other => ?_, inv.count⟩,
      ⟨base.word, base.next, fun p => ?_, fun p dead => ?_⟩⟩
    · rw [chargedTable_field (f := Proc.state) fun _ _ => rfl]
      exact inv.registered p
    · rw [chargedTable_field (f := Proc.state) fun _ _ => rfl]
      exact inv.running
    · rw [chargedTable_field (f := Proc.state) fun _ _ => rfl]
      exact inv.active p memP other
    · obtain ⟨list, found⟩ := base.lists p
      exact ⟨list, found.congr rfl (chargedTable_field (fun _ _ => rfl) s p)⟩
    · rw [chargedTable_field (f := Proc.state) fun _ _ => rfl] at dead
      rw [chargedTable_field (f := Proc.pageTables) fun _ _ => rfl]
      exact base.unused p dead

/-- **What a tick does**: the current process is charged, or its slice ends and the head of
the queue goes to the end. -/
theorem procNext_cases (inv : SchedInv s nodes) (base : SchedBase s nodes)
    (returned : procNext s = .ok ((), s')) :
    (decrement (s.procTable s.pid).execCount ≠ 0 ∧ s' = { s with procTable := chargedTable s }) ∨
      (decrement (s.procTable s.pid).execCount = 0 ∧ ∃ x xs next, nodes = x :: xs ∧
        QueueOf s' (xs ++ [x]) ∧ (∀ n, (s'.pidNodes n).pid = (s.pidNodes n).pid) ∧
        s'.procTable = switchedTable s next) := by
  by_cases more : decrement (s.procTable s.pid).execCount = 0
  · obtain ⟨x, xs, rfl⟩ : ∃ x xs, nodes = x :: xs := by
      cases nodes with
      | nil => exact absurd inv.queue.last (by simp)
      | cons x xs => exact ⟨x, xs, rfl⟩
    obtain ⟨next, head⟩ : ∃ next, (pidsOf s (xs ++ [x])).head? = some next := by
      cases tail : pidsOf s (xs ++ [x]) with
      | nil => simp [pidsOf] at tail
      | cons next _ => exact ⟨next, rfl⟩
    obtain ⟨tables, leaving⟩ := base.lists s.pid
    obtain ⟨tables', entering⟩ := base.lists next
    obtain ⟨t, run, queue, pids, -, table, -⟩ :=
      procNext_switch more inv.queue head leaving entering
    cases returned.symm.trans run
    exact Or.inr ⟨more, x, xs, next, rfl, queue, pids, table⟩
  · cases returned.symm.trans (procNext_stay more)
    exact Or.inl ⟨more, rfl⟩

/-- Where the lists of page tables are after a registration. -/
theorem Registered.lists {memory : RegisterMemory} {entryPoint priority pid : ℕ}
    (reg : Registered s s' nodes memory entryPoint priority pid) (base : SchedBase s nodes)
    (fresh : Fresh s memory) :
    PageList s' pid [memory.tableNode] ∧
      ∀ p, p ≠ pid → ∀ tables, PageList s p tables → PageList s' p tables := by
  constructor
  · have head : (s'.procTable pid).pageTables = memory.tableNode := by
      rw [reg.table]
      simp [registeredTable]
    refine ⟨?_, by unfold walkFuel; simp⟩
    rw [head]
    refine ⟨rfl, fresh.tableNull, ?_⟩
    change (s'.pageNodes memory.tableNode).next = 0
    rw [reg.pageNode]
    exact base.unused pid reg.dead
  · intro p differs tables list
    have same : s'.procTable p = s.procTable p := by
      rw [reg.table]
      exact Function.update_of_ne differs _ _
    refine ⟨?_, list.short⟩
    rw [same]
    refine list.list.congr fun n inList => ?_
    rw [reg.otherNodes n fun equal => fresh.tableNode p tables list (equal ▸ inList)]

/-- **A registration** returns and keeps the invariant. -/
theorem procRegister_keeps (entryPoint priority : ℕ) {memory : RegisterMemory}
    (inv : SchedInv s nodes) (base : SchedBase s nodes) (fresh : Fresh s memory)
    (remains : ∃ p < pidMax, (s.procTable p).state = .dead) :
    ∃ pid s', procRegister memory entryPoint priority s = .ok (pid, s') ∧
      Registered s s' nodes memory entryPoint priority pid ∧
      SchedInv s' (nodes ++ [memory.queueNode]) ∧ SchedBase s' (nodes ++ [memory.queueNode]) := by
  obtain ⟨pid, s', run, reg⟩ := procRegister_run memory entryPoint priority inv.queue
    (fresh.queueNode _ inv.queue) fresh.queueNull base.next remains
  have notQueued : pid ∉ pidsOf s nodes := fun member =>
    (inv.registered pid).mp member reg.dead
  have notCurrent : pid ≠ s.pid := fun same => notQueued (same ▸ inv.pid_mem)
  have other : ∀ p, p ≠ pid → s'.procTable p = s.procTable p := fun p differs => by
    rw [reg.table]
    exact Function.update_of_ne differs _ _
  have self : (s'.procTable pid).state = .active ∧
      (s'.procTable pid).pageTables = memory.tableNode := by
    rw [reg.table]
    simp [registeredTable]
  have member : ∀ p, p ∈ pidsOf s' (nodes ++ [memory.queueNode]) ↔ p ∈ pidsOf s nodes ∨ p = pid :=
    fun p => by rw [reg.pids, List.mem_append, List.mem_singleton]
  refine ⟨pid, s', run, reg,
    ⟨reg.queue, ?_, fun p => ?_, ?_, ?_, fun p memP differs => ?_, ?_⟩,
    ⟨fun p memP => ?_, reg.next_lt, fun p => ?_, fun p dead => ?_⟩⟩
  · rw [reg.pids]
    exact List.nodup_append.mpr ⟨inv.nodup, by simp, fun p memP q memQ =>
      fun same => notQueued (List.mem_singleton.mp memQ ▸ same ▸ memP)⟩
  · rw [member]
    by_cases isPid : p = pid
    · simp [isPid, self.1]
    · rw [other p isPid, ← inv.registered]
      simp [isPid]
  · rw [reg.pids, List.head?_append, inv.head, reg.current]
    rfl
  · rw [reg.current, other _ notCurrent.symm]
    exact inv.running
  · rw [reg.current] at differs
    rcases (member p).mp memP with old | rfl
    · have isOld : p ≠ pid := fun same => notQueued (same ▸ old)
      rw [other p isOld]
      exact inv.active p old differs
    · exact self.1
  · have bounded : (pidsOf s nodes).length + 1 ≤ pidMax := by
      have nodup : (pid :: pidsOf s nodes).Nodup := List.nodup_cons.mpr ⟨notQueued, inv.nodup⟩
      have sub : pid :: pidsOf s nodes ⊆ List.range pidMax := by
        intro p memP
        rcases List.mem_cons.mp memP with rfl | old
        · exact List.mem_range.mpr reg.word
        · exact List.mem_range.mpr (base.word p old)
      have := (List.subperm_of_subset nodup sub).length_le
      simpa using this
    have length : (pidsOf s nodes).length = nodes.length := by simp [pidsOf]
    have count := inv.count
    rw [reg.num, Nat.mod_eq_of_lt (by omega), List.length_append, List.length_singleton]
    omega
  · rcases (member p).mp memP with old | rfl
    · exact base.word p old
    · exact reg.word
  · obtain ⟨own, others⟩ := reg.lists base fresh
    by_cases isPid : p = pid
    · exact ⟨_, isPid ▸ own⟩
    · obtain ⟨list, found⟩ := base.lists p
      exact ⟨list, others p isPid list found⟩
  · by_cases isPid : p = pid
    · rw [isPid, self.1] at dead
      cases dead
    · rw [other p isPid] at dead ⊢
      exact base.unused p dead

/-! ## Runs -/

/-- What the invariant promises about the next event. -/
structure SchedLive (s : Sched) : Prop where
  tick : ∃ s', procNext s = .ok ((), s')
  register : ∀ memory entryPoint priority, Fresh s memory →
    (∃ p < pidMax, (s.procTable p).state = .dead) →
    ∃ pid s', procRegister memory entryPoint priority s = .ok (pid, s')

theorem SchedInv.live (inv : SchedInv s nodes) (base : SchedBase s nodes) : SchedLive s := by
  refine ⟨?_, fun memory entryPoint priority fresh remains => ?_⟩
  · obtain ⟨s', -, run, -⟩ := procNext_keeps inv base
    exact ⟨s', run⟩
  · obtain ⟨pid, s', run, -⟩ := procRegister_keeps entryPoint priority inv base fresh remains
    exact ⟨pid, s', run⟩

/-- **Every run keeps the invariant.** -/
theorem schedInv_of_run (inv : SchedInv s nodes) (base : SchedBase s nodes)
    (run : Relation.ReflTransGen SchedStep s s') :
    ∃ nodes', SchedInv s' nodes' ∧ SchedBase s' nodes' := by
  induction run with
  | refl => exact ⟨nodes, inv, base⟩
  | tail _ step ih =>
      obtain ⟨nodes', inv', base'⟩ := ih
      cases step with
      | tick returned =>
          obtain ⟨s₁, nodes₁, run₁, -, inv₁, base₁⟩ := procNext_keeps inv' base'
          rw [run₁] at returned
          cases returned
          exact ⟨nodes₁, inv₁, base₁⟩
      | register fresh remains returned =>
          obtain ⟨pid, s₁, run₁, -, inv₁, base₁⟩ :=
            procRegister_keeps _ _ inv' base' fresh remains
          rw [run₁] at returned
          cases returned
          exact ⟨_, inv₁, base₁⟩

/-! ## `proc_init` -/

/-- A zeroed entry of the process table. -/
def zeroProc : Proc where
  pageTables := 0
  state := .dead
  ctxt := ⟨0, 0, 0, 0, 0, 0, 0, 0, 0, 0, 0, 0, 0, 0, 0, 0⟩
  execCount := 0
  priority := 0
  ppid := 0

/-- The static variables at boot, and a zeroed process table. -/
structure Zeroed (s : Sched) : Prop where
  table : s.procTable = fun _ => zeroProc
  num : s.procNum = 0
  pid : s.pid = 0
  next : s.nextPid = 0

/-- The nodes `proc_init` gets from `kmalloc` are distinct. -/
structure InitFresh (memory : InitMemory) : Prop where
  queueNodes : [memory.kernelNode, memory.memory1.queueNode, memory.memory2.queueNode,
    memory.memory3.queueNode, 0].Nodup
  tableNodes : [memory.memory1.tableNode, memory.memory2.tableNode, memory.memory3.tableNode,
    0].Nodup

/-- Every node of a list of page tables is one of `used`. -/
def PageNodesIn (s : Sched) (used : List ℕ) : Prop :=
  ∀ p tables, PageList s p tables → tables ⊆ used

/-- A new node is fresh in a state whose queue and page lists are known. -/
theorem fresh_of_known {used : List ℕ} {memory : RegisterMemory} (queue : QueueOf s nodes)
    (pages : PageNodesIn s used) (newQueue : memory.queueNode ∉ nodes)
    (queueNull : memory.queueNode ≠ 0) (newTable : memory.tableNode ∉ used)
    (tableNull : memory.tableNode ≠ 0) : Fresh s memory := by
  refine ⟨fun other list => ?_, queueNull, fun p tables list => ?_, tableNull⟩
  · rw [list.list.unique queue.list]
    exact newQueue
  · exact fun member => newTable (pages p tables list member)

theorem Registered.pageNodesIn {memory : RegisterMemory} {entryPoint priority pid : ℕ}
    {used : List ℕ} (reg : Registered s s' nodes memory entryPoint priority pid)
    (base : SchedBase s nodes) (fresh : Fresh s memory) (pages : PageNodesIn s used) :
    PageNodesIn s' (memory.tableNode :: used) := by
  obtain ⟨own, others⟩ := reg.lists base fresh
  intro p tables list
  by_cases isPid : p = pid
  · subst isPid
    rw [list.list.unique own.list]
    simp
  · obtain ⟨old, found⟩ := base.lists p
    rw [list.list.unique (others p isPid old found).list]
    exact fun n member => List.mem_cons_of_mem _ (pages p old found member)

/-- The state of a started scheduler: the kernel is current, and every other
process has the context `proc_register` wrote. -/
structure Booted (s : Sched) (nodes : List ℕ) : Prop where
  inv : SchedInv s nodes
  base : SchedBase s nodes
  kernel : s.pid = 0
  written : ∀ p ∈ pidsOf s nodes, p ≠ 0 →
    ∃ entryPoint ctxt, (s.procTable p).ctxt = initialCtxt entryPoint ctxt

theorem Booted.register {memory : RegisterMemory} (booted : Booted s nodes)
    (entryPoint priority : ℕ) (fresh : Fresh s memory)
    (remains : ∃ p < pidMax, (s.procTable p).state = .dead) :
    ∃ pid s', procRegister memory entryPoint priority s = .ok (pid, s') ∧
      Registered s s' nodes memory entryPoint priority pid ∧
      Booted s' (nodes ++ [memory.queueNode]) := by
  obtain ⟨pid, s', run, reg, inv', base'⟩ :=
    procRegister_keeps entryPoint priority booted.inv booted.base fresh remains
  refine ⟨pid, s', run, reg, inv', base', reg.current.trans booted.kernel, fun p memP user => ?_⟩
  rw [reg.pids, List.mem_append, List.mem_singleton] at memP
  rw [reg.table, registeredTable]
  by_cases isPid : p = pid
  · subst isPid
    rw [Function.update_self]
    exact ⟨_, _, rfl⟩
  · rw [Function.update_of_ne isPid]
    exact booted.written p (memP.resolve_right isPid) user

/-- A short queue leaves a dead PID. -/
theorem SchedInv.exists_dead (inv : SchedInv s nodes) (short : nodes.length < pidMax) :
    ∃ p < pidMax, (s.procTable p).state = .dead := by
  by_contra none
  have sub : List.range pidMax ⊆ pidsOf s nodes := fun p inRange =>
    (inv.registered p).mpr fun dead => none ⟨p, List.mem_range.mp inRange, dead⟩
  have := (List.subperm_of_subset List.nodup_range sub).length_le
  rw [List.length_range, pidsOf, List.length_map] at this
  omega

/-- The static variables at boot. -/
structure AtBoot (s : Sched) : Prop where
  num : s.procNum = 0
  pid : s.pid = 0
  next : s.nextPid = 0

/-- What `proc_init` writes over the entry of the kernel. -/
def kernelEntry (p : Proc) : Proc :=
  { p with ppid := 0, state := .running, execCount := 1, priority := 10 }

/-- The state with the kernel as the only process in the queue. -/
structure KernelQueued (s₀ s : Sched) (node : ℕ) : Prop where
  table : s.procTable = Function.update s₀.procTable 0 (kernelEntry (s₀.procTable 0))
  queue : QueueOf s [node]
  pids : pidsOf s [node] = [0]
  num : s.procNum = 0
  current : s.pid = 0
  next : s.nextPid = 0
  pageNodes : s.pageNodes = s₀.pageNodes
  directory : s.directory = s₀.directory

/-- The three registrations of `proc_init`. -/
def procRegisterAll (memory : InitMemory) : PM Unit := do
  let _ ← procRegister memory.memory1 memory.proc1 30
  let _ ← procRegister memory.memory2 memory.proc2 10
  let _ ← procRegister memory.memory3 memory.proc3 10
  pure ()

/-- `proc_init` up to the first registration, over any process table. -/
theorem procInit_queue {s₀ : Sched} (memory : InitMemory) (boot : AtBoot s₀)
    (nonnull : memory.kernelNode ≠ 0) :
    ∃ s, procInit memory s₀ = procRegisterAll memory s ∧ KernelQueued s₀ s memory.kernelNode := by
  let s₁ : Sched := { s₀ with
    procQueueStart := 0
    procQueueEnd := 0
    esp0 := Word32.add memory.stackPage pageSize
    procTable := Function.update s₀.procTable 0 (kernelEntry (s₀.procTable 0)) }
  obtain ⟨store, start, add, list, -, last⟩ :=
    procQueueAdd_run 0 (s := s₁) (Or.inr ⟨rfl, rfl⟩) (by simp) nonnull
  let s₂ : Sched := { s₁ with
    pidNodes := store
    procQueueStart := start
    procQueueEnd := memory.kernelNode
    procNum := 0 }
  refine ⟨s₂, ?_, rfl, ⟨list, rfl⟩, congrArg (fun x => [x]) last, rfl, boot.pid, boot.next, rfl,
    rfl⟩
  have entry : modifyProc 0
      (fun p => { p with ppid := 0, state := .running, execCount := 1, priority := 10 })
      { s₀ with
        procQueueStart := 0
        procQueueEnd := 0
        esp0 := Word32.add memory.stackPage pageSize } = .ok ((), s₁) := rfl
  have num : decrement ((s₁.procNum + 1) % pidMax) = 0 := by
    rw [show s₁.procNum = 0 from boot.num]
    decide
  unfold procInit
  rw [Prog.bind_of_ok (m := setQueueStart 0) rfl, Prog.bind_of_ok (m := setQueueEnd 0) rfl,
    Prog.bind_of_ok rfl, Prog.bind_of_ok entry, Prog.bind_of_ok add,
    Prog.bind_of_ok (t := s₂) (by rw [Prog.update_run]; simp only [num]; rfl)]
  rfl

/-- Over a zeroed table the kernel alone is a started scheduler. -/
theorem procInit_kernel {s₀ : Sched} {memory : InitMemory} (zeroed : Zeroed s₀)
    (nonnull : memory.kernelNode ≠ 0) :
    ∃ s, procInit memory s₀ = procRegisterAll memory s ∧
      Booted s [memory.kernelNode] ∧ PageNodesIn s [] ∧ s.directory = s₀.directory := by
  obtain ⟨s, run, queued⟩ := procInit_queue memory ⟨zeroed.num, zeroed.pid, zeroed.next⟩ nonnull
  have entry : ∀ p, s.procTable p = if p = 0 then kernelEntry zeroProc else zeroProc := fun p => by
    rw [queued.table, Function.update_apply, zeroed.table]
  have noTables : ∀ p, (s.procTable p).pageTables = 0 := fun p => by
    rw [entry]
    split_ifs <;> rfl
  refine ⟨s, run, ⟨⟨queued.queue, by simp [queued.pids], fun p => ?_,
    by simp [queued.pids, queued.current], ?_, fun p memP other => ?_, by simp [queued.num]⟩,
    ⟨fun p memP => ?_, ?_, fun p => ⟨[], ?_, ?_⟩, fun p _ => noTables p⟩, queued.current,
    fun p memP user => ?_⟩, fun p tables found => ?_, queued.directory⟩
  · rw [queued.pids, List.mem_singleton, entry]
    split_ifs with isKernel
    · simp [isKernel, kernelEntry]
    · simp [isKernel, zeroProc]
  · rw [queued.current, entry, if_pos rfl]
    rfl
  · rw [queued.pids, List.mem_singleton] at memP
    exact absurd (memP.trans queued.current.symm) other
  · rw [queued.pids, List.mem_singleton] at memP
    rw [memP]
    decide
  · rw [queued.next]
    decide
  · exact noTables p
  · unfold walkFuel
    simp
  · rw [queued.pids, List.mem_singleton] at memP
    exact absurd memP user
  · have empty := found.list
    rw [noTables] at empty
    rw [show tables = [] from empty.unique rfl]
    exact fun _ member => member

/-- `proc_init` starts the scheduler over a zeroed process table. -/
theorem procInit_booted {s₀ : Sched} {memory : InitMemory} (zeroed : Zeroed s₀)
    (fresh : InitFresh memory) :
    ∃ s nodes, procInit memory s₀ = .ok ((), s) ∧ Booted s nodes ∧
      s.directory = s₀.directory := by
  obtain ⟨queueNodes, tableNodes⟩ := fresh
  simp only [List.nodup_cons, List.mem_cons, List.not_mem_nil, or_false, not_or,
    not_false_eq_true, and_true, List.nodup_nil] at queueNodes tableNodes
  obtain ⟨⟨k1, k2, k3, k0⟩, ⟨q12, q13, q1⟩, ⟨q23, q2⟩, q3⟩ := queueNodes
  obtain ⟨⟨t12, t13, t1⟩, ⟨t23, t2⟩, t3⟩ := tableNodes
  obtain ⟨s, init, booted, pages, directory⟩ := procInit_kernel zeroed k0
  have fresh₁ : Fresh s memory.memory1 :=
    fresh_of_known booted.inv.queue pages (by simp [Ne.symm k1]) q1 (by simp) t1
  obtain ⟨_, s₁, run₁, reg₁, booted₁⟩ := booted.register memory.proc1 30 fresh₁
    (booted.inv.exists_dead (by simp [pidMax]))
  have pages₁ := reg₁.pageNodesIn booted.base fresh₁ pages
  have fresh₂ : Fresh s₁ memory.memory2 :=
    fresh_of_known booted₁.inv.queue pages₁ (by simp [Ne.symm k2, Ne.symm q12]) q2
      (by simp [Ne.symm t12]) t2
  obtain ⟨_, s₂, run₂, reg₂, booted₂⟩ := booted₁.register memory.proc2 10 fresh₂
    (booted₁.inv.exists_dead (by simp [pidMax]))
  have pages₂ := reg₂.pageNodesIn booted₁.base fresh₂ pages₁
  have fresh₃ : Fresh s₂ memory.memory3 :=
    fresh_of_known booted₂.inv.queue pages₂
      (by simp [Ne.symm k3, Ne.symm q13, Ne.symm q23]) q3
      (by simp [Ne.symm t13, Ne.symm t23]) t3
  obtain ⟨_, s₃, run₃, reg₃, booted₃⟩ := booted₂.register memory.proc3 10 fresh₃
    (booted₂.inv.exists_dead (by simp [pidMax]))
  refine ⟨s₃, _, ?_, booted₃, ?_⟩
  · rw [init, procRegisterAll, Prog.bind_of_ok run₁, Prog.bind_of_ok run₂, Prog.bind_of_ok run₃]
    rfl
  · rw [reg₃.directory, reg₂.directory, reg₁.directory, directory]

/-- **The scheduler queue.** `proc_init` returns over a zeroed process table, and after every
interleaving of timer ticks and registrations the scheduler invariant holds and the next event
returns.  The invariant says that the queue is a list from its head to its end whose nodes carry
each live PID once, with the current one in front.  Registrations need a dead PID and fresh nodes;
that the allocators give fresh ones is shown for the kernel heap in `privateMemory_of_boot`. -/
theorem schedInv_of_init {s₀ : Sched} {memory : InitMemory} (zeroed : Zeroed s₀)
    (fresh : InitFresh memory) :
    ∃ s, procInit memory s₀ = .ok ((), s) ∧
      ∀ s', Relation.ReflTransGen SchedStep s s' → (∃ nodes, SchedInv s' nodes) ∧ SchedLive s' := by
  obtain ⟨s, nodes, init, booted, -⟩ := procInit_booted zeroed fresh
  refine ⟨s, init, fun s' run => ?_⟩
  obtain ⟨nodes', inv', base'⟩ := schedInv_of_run booted.inv booted.base run
  exact ⟨⟨nodes', inv'⟩, inv'.live base'⟩

/-- A scheduler before `proc_init`. -/
def zeroSched : Sched where
  procTable _ := zeroProc
  procNum := 0
  pid := 0
  procQueueStart := 0
  procQueueEnd := 0
  nextPid := 0
  pidNodes _ := ⟨0, 0⟩
  pageNodes _ := ⟨0, 0, 0, 0⟩
  pageDir _ := 0
  pageTableLookup _ := 0
  userTables _ _ := 0
  esp0 := 0

/-- A heap that hands out ascending addresses. -/
def sampleInitMemory : InitMemory where
  stackPage := 0xE0200000
  kernelNode := 0xE0201008
  memory1 := ⟨0xE0202000, 0xE0203008, 0x00400000, 0x00401000, 0xE0203020⟩
  memory2 := ⟨0xE0204000, 0xE0205008, 0x00402000, 0x00403000, 0xE0205020⟩
  memory3 := ⟨0xE0206000, 0xE0207008, 0x00404000, 0x00405000, 0xE0207020⟩
  proc1 := 0xE0001000
  proc2 := 0xE0001010
  proc3 := 0xE0001020

theorem schedInv_of_sample_init :
    ∃ s, procInit sampleInitMemory zeroSched = .ok ((), s) ∧ ∃ nodes, SchedInv s nodes := by
  obtain ⟨s, init, runs⟩ := schedInv_of_init (show Zeroed zeroSched from ⟨rfl, rfl, rfl, rfl⟩)
    (show InitFresh sampleInitMemory from ⟨by decide, by decide⟩)
  exact ⟨s, init, (runs s Relation.ReflTransGen.refl).1⟩

end TrashOS
