import TrashOS.Proc.RoundRobin

/-!
# Address spaces across context switches

Each process has a list of page tables, installed in the page directory while it
runs.  A switch wipes the entries of the process that leaves and installs those
of the one that enters.  Since the entries concerned are empty at boot, the
directory is at any time the boot directory with the tables of the current
process installed (`Spaced`), whatever indices the lists share.

* `SpacesStart` — the boot state: the kernel is current and has no tables of its own, no
  list has an index twice, and at the indices of all lists the boot directory is empty.
* `procNext_spaced` — one tick, with a switch or without.
* `addressSpaces_isolated` — after any number of ticks.
-/

namespace TrashOS

/-! ## Installing and wiping -/

namespace Directory

variable {d boot : Directory} {nodes : List ProcPageNode} {idx : ℕ}

/-- Both words of an index are zero. -/
def Empty (d : Directory) (idx : ℕ) : Prop := d.entry idx = 0 ∧ d.table idx = 0

theorem set_of_ne {i : ℕ} (table entry : ℕ) (differs : idx ≠ i) :
    (d.set i table entry).entry idx = d.entry idx ∧
      (d.set i table entry).table idx = d.table idx :=
  ⟨Function.update_of_ne differs _ _, Function.update_of_ne differs _ _⟩

theorem set_self {i table entry : ℕ} :
    (d.set i table entry).entry i = entry ∧ (d.set i table entry).table i = table :=
  ⟨Function.update_self _ _ _, Function.update_self _ _ _⟩

/-- Installing does not concern other indices. -/
theorem install_of_ne (others : ∀ node ∈ nodes, node.pageDirIdx ≠ idx) :
    (d.install nodes).entry idx = d.entry idx ∧ (d.install nodes).table idx = d.table idx := by
  induction nodes generalizing d with
  | nil => exact ⟨rfl, rfl⟩
  | cons node nodes ih =>
      obtain ⟨entry, table⟩ := ih (d := d.set node.pageDirIdx node.pageTableVma node.pageDirEntry)
        fun other member => others other (List.mem_cons_of_mem _ member)
      have outside := set_of_ne (d := d) node.pageTableVma node.pageDirEntry
        (others node (by simp)).symm
      exact ⟨entry.trans outside.1, table.trans outside.2⟩

/-- Installing a list that holds an index once puts its node there. -/
theorem install_of_mem (once : (nodes.map ProcPageNode.pageDirIdx).Nodup) {node : ProcPageNode}
    (member : node ∈ nodes) :
    (d.install nodes).entry node.pageDirIdx = node.pageDirEntry ∧
      (d.install nodes).table node.pageDirIdx = node.pageTableVma := by
  induction nodes generalizing d with
  | nil => simp at member
  | cons first nodes ih =>
      rw [List.map_cons, List.nodup_cons] at once
      rcases List.mem_cons.mp member with rfl | later
      · have others : ∀ other ∈ nodes, other.pageDirIdx ≠ node.pageDirIdx :=
          fun other inNodes same => once.1 (same ▸ List.mem_map_of_mem inNodes)
        obtain ⟨entry, table⟩ := install_of_ne
          (d := d.set node.pageDirIdx node.pageTableVma node.pageDirEntry) others
        exact ⟨entry.trans set_self.1, table.trans set_self.2⟩
      · exact ih once.2 later

/-- Wiping does not concern other indices. -/
theorem wipe_of_ne (others : ∀ node ∈ nodes, node.pageDirIdx ≠ idx) :
    (d.wipe nodes).entry idx = d.entry idx ∧ (d.wipe nodes).table idx = d.table idx := by
  induction nodes generalizing d with
  | nil => exact ⟨rfl, rfl⟩
  | cons node nodes ih =>
      obtain ⟨entry, table⟩ := ih (d := d.set node.pageDirIdx 0 0)
        fun other member => others other (List.mem_cons_of_mem _ member)
      have outside := set_of_ne (d := d) 0 0 (others node (by simp)).symm
      exact ⟨entry.trans outside.1, table.trans outside.2⟩

/-- Wiping leaves every index of the list empty, and those that were. -/
theorem wipe_empty (either : (∃ node ∈ nodes, node.pageDirIdx = idx) ∨ d.Empty idx) :
    (d.wipe nodes).Empty idx := by
  induction nodes generalizing d with
  | nil =>
      rcases either with ⟨node, member, -⟩ | empty
      · simp at member
      · exact empty
  | cons first nodes ih =>
      refine ih (d := d.set first.pageDirIdx 0 0) ?_
      by_cases here : idx = first.pageDirIdx
      · exact Or.inr (here ▸ set_self)
      · have outside := set_of_ne (d := d) 0 0 here
        rcases either with ⟨node, member, same⟩ | empty
        · rcases List.mem_cons.mp member with rfl | later
          · exact absurd same.symm here
          · exact Or.inl ⟨node, later, same⟩
        · exact Or.inr ⟨outside.1.trans empty.1, outside.2.trans empty.2⟩

/-- Wiping what was installed over empty entries restores the directory. -/
theorem wipe_install (empty : ∀ node ∈ nodes, d.Empty node.pageDirIdx) :
    (d.install nodes).wipe nodes = d := by
  have same : ∀ idx, ((d.install nodes).wipe nodes).entry idx = d.entry idx ∧
      ((d.install nodes).wipe nodes).table idx = d.table idx := by
    intro idx
    by_cases listed : ∃ node ∈ nodes, node.pageDirIdx = idx
    · obtain ⟨node, member, rfl⟩ := listed
      have wiped := wipe_empty (d := d.install nodes) (Or.inl ⟨node, member, rfl⟩)
      have before := empty node member
      exact ⟨wiped.1.trans before.1.symm, wiped.2.trans before.2.symm⟩
    · have others : ∀ node ∈ nodes, node.pageDirIdx ≠ idx :=
        fun node member same => listed ⟨node, member, same⟩
      have wiped := wipe_of_ne (d := d.install nodes) others
      have installed := install_of_ne (d := d) others
      exact ⟨wiped.1.trans installed.1, wiped.2.trans installed.2⟩
  cases d
  exact congrArg₂ Directory.mk (funext fun idx => (same idx).1) (funext fun idx => (same idx).2)

end Directory

/-! ## The invariant -/

/-- The directory indices that occur in the lists of the queued processes. -/
def UserIdx (s : Sched) (nodes : List ℕ) (idx : ℕ) : Prop :=
  ∃ p ∈ pidsOf s nodes, ∃ tables, PageList s p tables ∧
    ∃ n ∈ tables, (s.pageNodes n).pageDirIdx = idx

/-- In the boot directory what is not present is zero. -/
def BootClean (d : Directory) : Prop := ∀ idx, d.entry idx % 2 = 0 → d.Empty idx

/-- The state after `proc_init`: the kernel is current and has no page tables of
its own, no list holds an index twice, and none of the indices is present in the
boot directory. -/
structure SpacesStart (s : Sched) (nodes : List ℕ) : Prop where
  inv : SchedInv s nodes
  base : SchedBase s nodes
  kernel : s.pid = 0
  kernelTables : PageList s 0 []
  once : ∀ p ∈ pidsOf s nodes, ∀ tables, PageList s p tables →
    (tables.map fun n => (s.pageNodes n).pageDirIdx).Nodup
  absent : ∀ idx, UserIdx s nodes idx → s.pageDir idx % 2 = 0
  clean : BootClean s.directory

/-- The directory of `s` is the boot directory with the tables of the current
process installed; queue and lists are those of the start. -/
structure Spaced (boot s : Sched) (bootNodes nodes : List ℕ) : Prop where
  inv : SchedInv s nodes
  base : SchedBase s nodes
  pids : (pidsOf s nodes).Perm (pidsOf boot bootNodes)
  pageNodes : s.pageNodes = boot.pageNodes
  pageTables : ∀ p, (s.procTable p).pageTables = (boot.procTable p).pageTables
  directory : ∀ tables, PageList boot s.pid tables →
    s.directory = boot.directory.install (tables.map boot.pageNodes)

variable {boot s : Sched} {bootNodes nodes : List ℕ}

/-- The indices of a queued process are empty at boot. -/
theorem SpacesStart.empty (start : SpacesStart boot bootNodes) {p : ℕ} {tables : List ℕ}
    (queued : p ∈ pidsOf boot bootNodes) (list : PageList boot p tables) :
    ∀ node ∈ tables.map boot.pageNodes, boot.directory.Empty node.pageDirIdx := by
  intro node member
  obtain ⟨n, inList, rfl⟩ := List.mem_map.mp member
  exact start.clean _ (start.absent _ ⟨p, queued, tables, list, n, inList, rfl⟩)

theorem SpacesStart.spaced (start : SpacesStart boot bootNodes) :
    Spaced boot boot bootNodes bootNodes := by
  refine ⟨start.inv, start.base, List.Perm.refl _, rfl, fun _ => rfl, fun tables list => ?_⟩
  rw [start.kernel] at list
  rw [list.list.unique start.kernelTables.list]
  rfl

/-- **A timer tick** keeps the directory in step with the current process. -/
theorem procNext_spaced (start : SpacesStart boot bootNodes)
    (spaced : Spaced boot s bootNodes nodes) :
    ∃ s' nodes', procNext s = .ok ((), s') ∧ Spaced boot s' bootNodes nodes' := by
  obtain ⟨s', nodes', run, ticked, inv', base'⟩ := procNext_keeps spaced.inv spaced.base
  have back : ∀ p tables, PageList boot p tables → PageList s p tables := fun p tables list =>
    list.congr spaced.pageNodes (spaced.pageTables p)
  refine ⟨s', nodes', run, inv', base', ticked.pids.trans spaced.pids,
    ticked.pageNodes.trans spaced.pageNodes,
    fun p => (ticked.pageTables p).trans (spaced.pageTables p), fun tables' entering => ?_⟩
  obtain ⟨tables, leaving⟩ := start.base.lists s.pid
  have queued : s.pid ∈ pidsOf boot bootNodes := spaced.pids.mem_iff.mp spaced.inv.pid_mem
  have before := spaced.directory tables leaving
  rcases ticked.directory tables tables' (back _ _ leaving) (back _ _ entering) with
    switched | ⟨samePid, same⟩
  · rw [switched, spaced.pageNodes, before, Directory.wipe_install (start.empty queued leaving)]
  · rw [samePid] at entering
    rw [same, spaced.directory tables' entering]

theorem schedule_spaced (start : SpacesStart boot bootNodes) {n : ℕ}
    (spaced : Spaced boot s bootNodes nodes) :
    ∃ pids s' nodes', schedule n s = .ok (pids, s') ∧ Spaced boot s' bootNodes nodes' := by
  induction n generalizing s nodes with
  | zero => exact ⟨[], s, nodes, rfl, spaced⟩
  | succ n ih =>
      obtain ⟨s₁, nodes₁, run₁, spaced₁⟩ := procNext_spaced start spaced
      obtain ⟨pids, s₂, nodes₂, run₂, spaced₂⟩ := ih spaced₁
      refine ⟨s.pid :: pids, s₂, nodes₂, ?_, spaced₂⟩
      unfold schedule
      rw [Prog.bind_of_ok (m := getPid) (a := s.pid) rfl, Prog.bind_of_ok run₁,
        Prog.bind_of_ok run₂]
      rfl

/-! ## Isolation -/

/-- **Address-space isolation.** After any number of timer ticks, an index of a process shows the
entry and the table the current process registered for it, or zero in both arrays; all other
indices are as at boot.  So no tick leaves an entry of one process visible to another:
`proc_mem_unmap` clears what the process that leaves had registered, before `proc_mem_map`
installs the entries of the next one.  The lists of page tables may have any shape, as long as the
start state has them apart. -/
theorem addressSpaces_isolated (start : SpacesStart boot bootNodes) (n : ℕ) :
    ∃ pids s' tables, schedule n boot = .ok (pids, s') ∧ s'.pid ∈ pidsOf boot bootNodes ∧
      PageList boot s'.pid tables ∧
      (∀ idx, UserIdx boot bootNodes idx →
        (∃ m ∈ tables, (boot.pageNodes m).pageDirIdx = idx ∧
          s'.pageDir idx = (boot.pageNodes m).pageDirEntry ∧
          s'.pageTableLookup idx = (boot.pageNodes m).pageTableVma) ∨
        ((∀ m ∈ tables, (boot.pageNodes m).pageDirIdx ≠ idx) ∧
          s'.pageDir idx = 0 ∧ s'.pageTableLookup idx = 0)) ∧
      ∀ idx, ¬ UserIdx boot bootNodes idx →
        s'.pageDir idx = boot.pageDir idx ∧ s'.pageTableLookup idx = boot.pageTableLookup idx := by
  obtain ⟨pids, s', nodes', run, spaced⟩ := schedule_spaced (n := n) start start.spaced
  obtain ⟨tables, list⟩ := start.base.lists s'.pid
  have queued : s'.pid ∈ pidsOf boot bootNodes := spaced.pids.mem_iff.mp spaced.inv.pid_mem
  have directory := spaced.directory tables list
  have entry : ∀ idx, s'.pageDir idx
      = (boot.directory.install (tables.map boot.pageNodes)).entry idx := fun idx =>
    congrFun (congrArg Directory.entry directory) idx
  have table : ∀ idx, s'.pageTableLookup idx
      = (boot.directory.install (tables.map boot.pageNodes)).table idx := fun idx =>
    congrFun (congrArg Directory.table directory) idx
  have once : ((tables.map boot.pageNodes).map ProcPageNode.pageDirIdx).Nodup := by
    rw [List.map_map]
    exact start.once _ queued tables list
  have outside : ∀ idx, (∀ m ∈ tables, (boot.pageNodes m).pageDirIdx ≠ idx) →
      s'.pageDir idx = boot.pageDir idx ∧ s'.pageTableLookup idx = boot.pageTableLookup idx := by
    intro idx others
    have notListed : ∀ node ∈ tables.map boot.pageNodes, node.pageDirIdx ≠ idx := by
      intro node member
      obtain ⟨m, inList, rfl⟩ := List.mem_map.mp member
      exact others m inList
    have untouched := Directory.install_of_ne (d := boot.directory) notListed
    exact ⟨(entry idx).trans untouched.1, (table idx).trans untouched.2⟩
  refine ⟨pids, s', tables, run, queued, list, fun idx user => ?_, fun idx notUser => ?_⟩
  · by_cases registered : ∃ m ∈ tables, (boot.pageNodes m).pageDirIdx = idx
    · obtain ⟨m, inList, rfl⟩ := registered
      have installed := Directory.install_of_mem (d := boot.directory) once
        (List.mem_map_of_mem inList)
      exact Or.inl ⟨m, inList, rfl, (entry _).trans installed.1, (table _).trans installed.2⟩
    · have others : ∀ m ∈ tables, (boot.pageNodes m).pageDirIdx ≠ idx :=
        fun m inList same => registered ⟨m, inList, same⟩
      have empty := start.clean idx (start.absent idx user)
      obtain ⟨sameEntry, sameTable⟩ := outside idx others
      exact Or.inr ⟨others, sameEntry.trans empty.1, sameTable.trans empty.2⟩
  · exact outside idx fun m inList same =>
      notUser ⟨s'.pid, queued, tables, list, m, inList, same⟩

/-- The kernel, and a process with a stack page table at index 895. -/
def sampleSpaces : Sched :=
  { sampleRound with
    procTable := fun p =>
      { sampleRound.procTable p with pageTables := if p = 1 then 40 else 0 }
    pageNodes := fun _ => ⟨0, 895, 0xE0202000, 0x00400007⟩ }

theorem sampleSpaces_lists (p : ℕ) : PageList sampleSpaces p (if p = 1 then [40] else []) := by
  split_ifs with user
  · subst user
    exact ⟨⟨rfl, by decide, rfl⟩, by decide⟩
  · exact ⟨if_neg user, by decide⟩

theorem sampleSpaces_tables {p : ℕ} {tables : List ℕ} (list : PageList sampleSpaces p tables) :
    tables = if p = 1 then [40] else [] :=
  list.list.unique (sampleSpaces_lists p).list

theorem sampleSpaces_table (p : ℕ) : sampleSpaces.procTable p
    = if p = 0 then { zeroProc with state := .running, execCount := 3, priority := 3 }
      else if p = 1 then
        { zeroProc with pageTables := 40, state := .active, execCount := 2, priority := 2 }
      else zeroProc := by
  change { sampleRound.procTable p with pageTables := if p = 1 then 40 else 0 } = _
  by_cases kernel : p = 0
  · subst kernel
    rfl
  · by_cases user : p = 1
    · subst user
      rfl
    · simp only [sampleRound, if_neg kernel, if_neg user]
      rfl

theorem sampleSpaces_start : SpacesStart sampleSpaces [8, 24] where
  inv :=
    { queue := ⟨sampleRound_start.queue.list, rfl⟩
      nodup := by decide
      registered := fun p => by
        rw [sampleSpaces_table]
        change p ∈ [0, 1] ↔ _
        split_ifs with kernel user
        · simp [kernel]
        · simp [user]
        · simp [kernel, user, zeroProc]
      head := rfl
      running := rfl
      active := by decide
      count := rfl }
  base :=
    { word := by decide
      next := by decide
      lists := fun p => ⟨_, sampleSpaces_lists p⟩
      unused := fun p dead => by
        rw [sampleSpaces_table] at dead ⊢
        split_ifs at dead ⊢
        rfl }
  kernel := rfl
  kernelTables := sampleSpaces_lists 0
  once p _ tables list := by
    rw [sampleSpaces_tables list]
    split_ifs
    · simp
    · simp
  absent _ _ := rfl
  clean _ _ := ⟨rfl, rfl⟩

theorem addressSpaces_of_sample :
    ∃ pids s', schedule 3 sampleSpaces = .ok (pids, s') ∧ s'.pageDir 0 = 0 ∧
      (s'.pageDir 895 = 0x00400007 ∨ s'.pageDir 895 = 0) := by
  obtain ⟨pids, s', tables, run, -, -, users, others⟩ := addressSpaces_isolated sampleSpaces_start 3
  have user : UserIdx sampleSpaces [8, 24] 895 :=
    ⟨1, by decide, [40], sampleSpaces_lists 1, 40, by simp, rfl⟩
  have kernel : ¬ UserIdx sampleSpaces [8, 24] 0 := by
    rintro ⟨p, -, tables, -, n, -, idx⟩
    cases idx
  refine ⟨pids, s', run, (others 0 kernel).1, ?_⟩
  rcases users 895 user with ⟨m, -, -, entry, -⟩ | ⟨-, entry, -⟩
  · exact Or.inl entry
  · exact Or.inr entry

end TrashOS
