import TrashOS.Lib.Program
import TrashOS.Machine
import Mathlib.Logic.Function.Basic

/-!
# `proc.c`: the process table and the scheduler

A function-by-function translation.  The static variables of `proc.c` are the
fields of `Sched`; the nodes of the two kinds of linked list, which the C code
allocates with `kmalloc`, are stores indexed by address.  What `kmalloc`,
`kalloc`, `page_new` and `page_get_pma` return during a call is a parameter of
the call (`RegisterMemory`, `InitMemory`).

`pid_t` and `pc_t` are 16-bit counters; both wrap.
-/

namespace TrashOS

/-! ## Types and constants (`proc.h`, `gdt.h`) -/

/-- `proc_state_t`.  The enumeration is stored in a whole word, so memory that no
code has written may hold a value that is none of its members. -/
inductive ProcState where
  | dead
  | sleeping
  | active
  | running
  | other (value : ℕ)
  deriving DecidableEq, Repr

/-- `proc_ctxt_t`, in the order of its fields. -/
structure ProcCtxt where
  ds : ℕ
  es : ℕ
  fs : ℕ
  gs : ℕ
  eax : ℕ
  ecx : ℕ
  edx : ℕ
  ebx : ℕ
  ebp : ℕ
  esi : ℕ
  edi : ℕ
  eip : ℕ
  cs : ℕ
  eflags : ℕ
  /-- Only present on privilege change -/
  esp : ℕ
  /-- Only present on privilege change -/
  ss : ℕ
  deriving DecidableEq, Repr

/-- `proc_page_node_t` -/
structure ProcPageNode where
  next : ℕ
  pageDirIdx : ℕ
  pageTableVma : ℕ
  pageDirEntry : ℕ
  deriving DecidableEq, Repr

/-- `pid_node_t` -/
structure PidNode where
  next : ℕ
  pid : ℕ
  deriving DecidableEq, Repr

/-- `proc_t`, without the inode and the start time, which nothing reads. -/
structure Proc where
  /-- Linked list of process page tables -/
  pageTables : ℕ
  state : ProcState
  ctxt : ProcCtxt
  /-- Number of execution time slices remaining -/
  execCount : ℕ
  /-- Number of execution time slices allowed -/
  priority : ℕ
  ppid : ℕ
  deriving DecidableEq, Repr

/-- `PID_MAX`, the number of values of `pid_t` and of `pc_t` -/
def pidMax : ℕ := 2 ^ 16

/-- `GDT_SEL_CODE_PL3` -/
def gdtSelCodePl3 : ℕ := 0x23

/-- `GDT_SEL_DATA_PL3` -/
def gdtSelDataPl3 : ℕ := 0x2b

/-- The static variables of `proc.c`, the list nodes they lead to, and the page
directory. -/
structure Sched where
  procTable : ℕ → Proc
  procNum : ℕ
  /-- `PID` -/
  pid : ℕ
  procQueueStart : ℕ
  procQueueEnd : ℕ
  /-- The static variable of `proc_new_pid` -/
  nextPid : ℕ
  pidNodes : ℕ → PidNode
  pageNodes : ℕ → ProcPageNode
  pageDir : ℕ → ℕ
  pageTableLookup : ℕ → ℕ
  /-- The user page tables, by address and index -/
  userTables : ℕ → ℕ → ℕ
  /-- `TSS.esp0` -/
  esp0 : ℕ

/-- Kernel code over the scheduler state. -/
abbrev PM (α : Type) : Type := Prog Sched Stop α

/-! ## Fields -/

/-- `proc_table[pid]` is updated. -/
def modifyProc (pid : ℕ) (f : Proc → Proc) : PM Unit :=
  Prog.update fun s =>
    { s with procTable := Function.update s.procTable pid (f (s.procTable pid)) }

/-- `node->next = next` -/
def setPidNodeNext (node next : ℕ) : PM Unit :=
  Prog.update fun s =>
    { s with pidNodes := Function.update s.pidNodes node { s.pidNodes node with next := next } }

/-- `node->pid = pid` -/
def setPidNodePid (node pid : ℕ) : PM Unit :=
  Prog.update fun s =>
    { s with pidNodes := Function.update s.pidNodes node { s.pidNodes node with pid := pid } }

/-- `proc_queue_start = node` -/
def setQueueStart (node : ℕ) : PM Unit := Prog.update fun s => { s with procQueueStart := node }

/-- `proc_queue_end = node` -/
def setQueueEnd (node : ℕ) : PM Unit := Prog.update fun s => { s with procQueueEnd := node }

/-- `PID` -/
def getPid : PM ℕ := Prog.read Sched.pid

/-- `PID = pid` -/
def setPid (pid : ℕ) : PM Unit := Prog.update fun s => { s with pid := pid }

/-! ## Address spaces -/

/-- `page_set_dir_entry` -/
def pageSetDirEntry (idx tableVma entry : ℕ) : PM Unit :=
  Prog.update fun s =>
    { s with
      pageTableLookup := Function.update s.pageTableLookup idx tableVma
      pageDir := Function.update s.pageDir idx entry }

/-- The loop of `proc_mem_map`. -/
def procMemMapNodes : ℕ → ℕ → PM Unit
  | 0, _ => Prog.stop .fuel
  | fuel + 1, n =>
      if n = 0 then
        pure ()
      else do
        let node ← Prog.read fun s => s.pageNodes n
        pageSetDirEntry node.pageDirIdx node.pageTableVma node.pageDirEntry
        procMemMapNodes fuel node.next

/-- The loop of `proc_mem_unmap`. -/
def procMemUnmapNodes : ℕ → ℕ → PM Unit
  | 0, _ => Prog.stop .fuel
  | fuel + 1, n =>
      if n = 0 then
        pure ()
      else do
        let node ← Prog.read fun s => s.pageNodes n
        pageSetDirEntry node.pageDirIdx 0 0
        procMemUnmapNodes fuel node.next

/-- A walk of more steps than there are addresses never ends. -/
def walkFuel : ℕ := 2 ^ 32 + 1

/-- `proc_mem_map` -/
def procMemMap (pid : ℕ) : PM Unit := do
  let n ← Prog.read fun s => (s.procTable pid).pageTables
  procMemMapNodes walkFuel n

/-- `proc_mem_unmap` -/
def procMemUnmap (pid : ℕ) : PM Unit := do
  let n ← Prog.read fun s => (s.procTable pid).pageTables
  procMemUnmapNodes walkFuel n

/-! ## Scheduling -/

/-- `--count` on a `pc_t`. -/
def decrement (count : ℕ) : ℕ := (count + (pidMax - 1)) % pidMax

/-- `proc_next`, "Place current pid to end of queue". -/
def procQueueRotate : PM Unit := do
  let queueEnd ← Prog.read Sched.procQueueEnd
  let queueStart ← Prog.read Sched.procQueueStart
  setPidNodeNext queueEnd queueStart
  setQueueEnd queueStart
  let next ← Prog.read fun s => (s.pidNodes queueStart).next
  setQueueStart next
  setPidNodeNext queueStart 0

/-- The context switch of `proc_next`.  Reloading `cr3` flushes the TLB and
changes nothing the scheduler can see. -/
def procSwitch : PM Unit := do
  let pid ← getPid
  modifyProc pid fun p => { p with execCount := p.priority }
  procQueueRotate
  modifyProc pid fun p => { p with state := .active }
  procMemUnmap pid
  let queueStart ← Prog.read Sched.procQueueStart
  let next ← Prog.read fun s => (s.pidNodes queueStart).pid
  setPid next
  procMemMap next
  modifyProc next fun p => { p with state := .running }

/-- `proc_next` -/
def procNext : PM Unit := do
  let pid ← getPid
  modifyProc pid fun p => { p with execCount := decrement p.execCount }
  let count ← Prog.read fun s => (s.procTable pid).execCount
  if count = 0 then procSwitch else pure ()

/-! ## Registration -/

/-- `proc_pid_taken` -/
def procPidTaken (s : Sched) (pid : ℕ) : Bool := (s.procTable pid).state ≠ .dead

/-- `proc_new_pid` -/
def procNewPid : ℕ → PM ℕ
  | 0 => Prog.stop .fuel
  | fuel + 1 => do
      let next ← Prog.read Sched.nextPid
      let taken ← Prog.read fun s => procPidTaken s next
      Prog.update fun s => { s with nextPid := (next + 1) % pidMax }
      if taken = true then procNewPid fuel else pure next

/-- What the allocators return during one `proc_register`. -/
structure RegisterMemory where
  /-- `kalloc(PAGE_GET_DEFAULT, PAGE_SIZE, PAGE_SIZE)` -/
  table : ℕ
  /-- `kmalloc(sizeof(proc_page_node_t))` -/
  tableNode : ℕ
  /-- `page_get_pma(table)` -/
  tablePma : ℕ
  /-- `PAGE_GET_DEFAULT()` -/
  stackPma : ℕ
  /-- `kmalloc(sizeof(pid_node_t))` -/
  queueNode : ℕ

/-- `proc_page_table_register` -/
def procPageTableRegister (tableNode tablePma pid tableVma spaceVma flags : ℕ) : PM Unit := do
  let next ← Prog.read fun s => (s.procTable pid).pageTables
  Prog.update fun s =>
    { s with
      pageNodes := Function.update s.pageNodes tableNode
        { next := next
          pageDirIdx := spaceVma >>> 22
          pageDirEntry := tablePma ||| flags
          pageTableVma := tableVma } }
  modifyProc pid fun p => { p with pageTables := tableNode }

/-- `proc_page_register` -/
def procPageRegister (tableVma vma entry : ℕ) : PM Unit :=
  Prog.update fun s =>
    { s with
      userTables := Function.update s.userTables tableVma
        (Function.update (s.userTables tableVma) (vma >>> 12 &&& 0x3ff) entry) }

/-- `proc_queue_add`, the link to the new node. -/
def procQueueLink (node : ℕ) : PM Unit := do
  let oldEnd ← Prog.read Sched.procQueueEnd
  if oldEnd ≠ 0 then do
    setQueueEnd node
    setPidNodeNext oldEnd node
  else do
    setQueueStart node
    setQueueEnd node

/-- `proc_queue_add` -/
def procQueueAdd (node pid : ℕ) : PM Unit := do
  procQueueLink node
  let queueEnd ← Prog.read Sched.procQueueEnd
  setPidNodePid queueEnd pid
  setPidNodeNext queueEnd 0
  Prog.update fun s => { s with procNum := (s.procNum + 1) % pidMax }

/-- The context `proc_register` writes over the one in the table. -/
def initialCtxt (entryPoint : ℕ) (ctxt : ProcCtxt) : ProcCtxt :=
  { ctxt with
    eip := entryPoint
    ss := gdtSelDataPl3
    gs := gdtSelDataPl3
    fs := gdtSelDataPl3
    es := gdtSelDataPl3
    ds := gdtSelDataPl3
    cs := gdtSelCodePl3
    esp := kernelStartVma
    eflags := 0x3202 }

/-- `proc_register` -/
def procRegister (memory : RegisterMemory) (entryPoint priority : ℕ) : PM ℕ := do
  let pid ← procNewPid (pidMax + 1)
  modifyProc pid fun p =>
    { p with
      ctxt := initialCtxt entryPoint p.ctxt
      state := .active
      execCount := priority
      priority := priority }
  let esp ← Prog.read fun s => (s.procTable pid).ctxt.esp
  let stackPageVma := Word32.sub esp pageSize
  let userDataFlags := pagePublic ||| pageWrite ||| pagePresent
  procPageTableRegister memory.tableNode memory.tablePma pid memory.table stackPageVma userDataFlags
  procPageRegister memory.table stackPageVma (memory.stackPma ||| userDataFlags)
  procQueueAdd memory.queueNode pid
  pure pid

/-- What the allocators return during `proc_init`, and where the three test
processes start. -/
structure InitMemory where
  /-- `kalloc(PAGE_GET_DEFAULT, PAGE_SIZE, PAGE_SIZE)` for the scheduler stack -/
  stackPage : ℕ
  /-- `kmalloc(sizeof(pid_node_t))` for the kernel -/
  kernelNode : ℕ
  memory1 : RegisterMemory
  memory2 : RegisterMemory
  memory3 : RegisterMemory
  proc1 : ℕ
  proc2 : ℕ
  proc3 : ℕ

/-- `proc_init`, after the process table was allocated. -/
def procInit (memory : InitMemory) : PM Unit := do
  setQueueStart 0
  setQueueEnd 0
  Prog.update fun s => { s with esp0 := Word32.add memory.stackPage pageSize }
  modifyProc 0 fun p => { p with ppid := 0, state := .running, execCount := 1, priority := 10 }
  procQueueAdd memory.kernelNode 0
  Prog.update fun s => { s with procNum := decrement s.procNum }
  let _ ← procRegister memory.memory1 memory.proc1 30
  let _ ← procRegister memory.memory2 memory.proc2 10
  let _ ← procRegister memory.memory3 memory.proc3 10
  pure ()

end TrashOS
