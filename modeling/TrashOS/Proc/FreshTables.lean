import TrashOS.Page.BootFrames
import TrashOS.Page.Cleanup
import TrashOS.Proc.Queue

/-!
# Fresh page tables

Two places of the kernel turn a block of the heap into a page table without
clearing it: `proc_register`, for the table of a user stack, and
`page_init_cleanup`, for the tables of the kernel region.

* `CleanBlock` — the block for the table of a process held no present bit, but perhaps in
  the word of the stack page, which the code writes.
* `CleanContents` — the pages for the tables of the kernel region held none.
* `freshTables_iff` — both kinds of table map nothing but what the code put into them if
  and only if the pages were clean.  For the kernel region this is about every turn of the
  loop; what is left at its end is stated beside it.
-/

namespace TrashOS

/-! ## The table of a process -/

/-- The process table, the nodes and the page tables are the same. -/
def SameTables (s s' : Sched) : Prop :=
  s'.procTable = s.procTable ∧ s'.pageNodes = s.pageNodes ∧ s'.userTables = s.userTables

instance : Std.Refl SameTables := ⟨fun _ => ⟨rfl, rfl, rfl⟩⟩

instance : IsTrans Sched SameTables :=
  ⟨fun _ _ _ first second => ⟨second.1.trans first.1, second.2.1.trans first.2.1,
    second.2.2.trans first.2.2⟩⟩

/-- Code that works on the queue and on PIDs only. -/
def KeepsTables {α : Type} (m : PM α) : Prop := Prog.Follows SameTables m

namespace KeepsTables

theorem read {α : Type} (f : Sched → α) : KeepsTables (Prog.read f) := by
  intro s a s' returned
  cases returned
  exact ⟨rfl, rfl, rfl⟩

theorem update {f : Sched → Sched} (same : ∀ s, SameTables s (f s)) :
    KeepsTables (Prog.update f) := by
  intro s a s' returned
  cases returned
  exact same s

theorem bind {α β : Type} {m : PM α} {f : α → PM β} (first : KeepsTables m)
    (second : ∀ a, KeepsTables (f a)) : KeepsTables (m >>= f) :=
  Prog.Follows.bind first second

theorem ite {α : Type} {c : Prop} [Decidable c] {m m' : PM α} (yes : KeepsTables m)
    (no : KeepsTables m') : KeepsTables (if c then m else m') :=
  Prog.Follows.ite yes no

theorem procNewPid : ∀ fuel, KeepsTables (TrashOS.procNewPid fuel)
  | 0 => Prog.Follows.stop _
  | fuel + 1 =>
      .bind (.read _) fun _ => .bind (.read _) fun _ =>
        .bind (.update fun _ => ⟨rfl, rfl, rfl⟩) fun _ =>
        .ite (procNewPid fuel) (Prog.Follows.pure _)

theorem procQueueAdd (node pid : ℕ) : KeepsTables (TrashOS.procQueueAdd node pid) := by
  have same : ∀ f : Sched → Sched, (∀ s, SameTables s (f s)) → KeepsTables (Prog.update f) :=
    fun _ => .update
  refine .bind ?_ fun _ => .bind (.read _) fun _ => .bind (same _ fun _ => ⟨rfl, rfl, rfl⟩) fun _ =>
    .bind (same _ fun _ => ⟨rfl, rfl, rfl⟩) fun _ => same _ fun _ => ⟨rfl, rfl, rfl⟩
  -- the link, to the old end or as the first node
  exact .bind (.read _) fun _ => .ite
    (.bind (same _ fun _ => ⟨rfl, rfl, rfl⟩) fun _ => same _ fun _ => ⟨rfl, rfl, rfl⟩)
    (.bind (same _ fun _ => ⟨rfl, rfl, rfl⟩) fun _ => same _ fun _ => ⟨rfl, rfl, rfl⟩)

end KeepsTables

/-- The table that the first node of the list of a process leads to. -/
def firstTable (s : Sched) (pid : ℕ) : ℕ → ℕ :=
  s.userTables (s.pageNodes (s.procTable pid).pageTables).pageTableVma

/-- `idx` is the only present entry of a table. -/
def OnlyPresent (table : ℕ → ℕ) (idx : ℕ) : Prop :=
  ∀ k < pageEntries, entryPresent (table k) = true ↔ k = idx

/-- A block holds no word with a present bit, but perhaps at `idx`. -/
def CleanBlock (words : ℕ → ℕ) (idx : ℕ) : Prop :=
  ∀ k < pageEntries, k ≠ idx → entryPresent (words k) = false

section Register

variable {memory : RegisterMemory} {entryPoint priority pid : ℕ} {s s' : Sched}

/-- The table of a new process is the block `kalloc` returned, with one entry
written. -/
theorem firstTable_of_register
    (returned : procRegister memory entryPoint priority s = .ok (pid, s')) :
    firstTable s' pid = Function.update (s.userTables memory.table) stackIdx
      (memory.stackPma ||| userDataFlags) := by
  unfold procRegister at returned
  obtain ⟨p, s₁, newPid, returned⟩ := Prog.bind_eq_ok.mp returned
  obtain ⟨u, s₂, entry, returned⟩ := Prog.bind_eq_ok.mp returned
  obtain ⟨esp, s₃, stack, returned⟩ := Prog.bind_eq_ok.mp returned
  obtain ⟨u, s₄, register, returned⟩ := Prog.bind_eq_ok.mp returned
  obtain ⟨u, s₅, page, returned⟩ := Prog.bind_eq_ok.mp returned
  obtain ⟨u, s₆, queue, final⟩ := Prog.bind_eq_ok.mp returned
  cases final
  obtain ⟨-, -, userTables⟩ := KeepsTables.procNewPid _ _ _ _ newPid
  obtain ⟨procTable, pageNodes, userTables'⟩ := KeepsTables.procQueueAdd _ _ _ _ _ queue
  cases entry
  cases stack
  unfold procPageTableRegister at register
  obtain ⟨next, t, read, register⟩ := Prog.bind_eq_ok.mp register
  obtain ⟨u, t', node, head⟩ := Prog.bind_eq_ok.mp register
  cases read
  cases node
  cases head
  cases page
  unfold firstTable
  rw [procTable, pageNodes, userTables']
  simp only [Function.update_self, userTables]
  rfl

/-- The entry `proc_register` writes is present. -/
theorem stackEntry_present : entryPresent (memory.stackPma ||| userDataFlags) = true := by
  unfold userDataFlags
  rw [← Nat.or_assoc, ← Nat.or_assoc]
  exact entryPresent_or _

/-- **The table of a process** maps its stack alone if and only if the block was
clean. -/
theorem onlyPresent_iff (returned : procRegister memory entryPoint priority s = .ok (pid, s')) :
    OnlyPresent (firstTable s' pid) stackIdx ↔ CleanBlock (s.userTables memory.table) stackIdx := by
  rw [firstTable_of_register returned]
  constructor
  · intro only k small other
    have absent := (only k small).not.mpr other
    rw [Function.update_of_ne other] at absent
    simpa using absent
  · intro clean k small
    by_cases here : k = stackIdx
    · subst here
      simp [stackEntry_present]
    · rw [Function.update_of_ne here, clean k small here]
      simp [here]

end Register

/-! ## Both kinds of table -/

section Both

variable {memory : RegisterMemory} {entryPoint priority pid depth : ℕ} {q q' : Sched}
  {contents : ℕ → ℕ → ℕ} {region : InitRegion} {s₀ s' : Sys PageTables}

/-- **Fresh tables.** The table of a new process maps its stack alone if and only if the block
held no other present bit.  The new tables of the kernel region map only what the code mapped
since, at every turn of the loop that makes them, if and only if their pages held no present bit;
at its end, if and only if all present bits the pages held have been overwritten.  Neither place
clears the block, so what its words held decides.  `contents` are the words that the pages of the
kernel region held when they became tables. -/
theorem freshTables_iff (registered : procRegister memory entryPoint priority q = .ok (pid, q'))
    (cleaned : pageInitCleanup depth contents region s₀ = .ok ((), s')) :
    (OnlyPresent (firstTable q' pid) stackIdx ↔
      CleanBlock (q.userTables memory.table) stackIdx) ∧
    ∃ s, freeInitPages depth region s₀ = .ok ((), s) ∧
      allocTables depth contents kernelTables s = .ok ((), s') ∧
      ((∀ n ≤ kernelTables, MapsOnlyMapped depth contents s n) ↔
        CleanContents contents s kernelTables) ∧
      (MapsOnlyMapped depth contents s kernelTables ↔
        DirtyWritten depth contents s kernelTables) := by
  refine ⟨onlyPresent_iff registered, ?_⟩
  obtain ⟨u, s, freed, allocated⟩ := Prog.bind_eq_ok.mp cleaned
  exact ⟨s, freed, allocated, mapsOnlyMapped_all_iff allocated, mapsOnlyMapped_iff⟩

end Both

/-- A first process on zeroed memory, and the tables that the smallest kernel makes after its
boot. -/
theorem freshTables_sample :
    ∃ pid q', procRegister sampleInitMemory.memory1 0 30 zeroSched = .ok (pid, q') ∧
      OnlyPresent (firstTable q' pid) stackIdx ∧
      ∃ s s', freeInitPages 2 smallRegion smallBoot = .ok ((), s) ∧
        allocTables 2 (fun _ _ => 0) kernelTables s = .ok ((), s') ∧
        ∀ n ≤ kernelTables, MapsOnlyMapped 2 (fun _ _ => 0) s n := by
  obtain ⟨pid, q', registered, -⟩ := Prog.exists_of_check (s := zeroSched)
    (m := procRegister sampleInitMemory.memory1 0 30) (fun _ _ => true) (by decide +kernel)
  obtain ⟨s', made, booted, -⟩ := smallBoot_booted
  obtain ⟨process, s, freed, allocated, kernel, -⟩ := freshTables_iff registered (booted.runs 0)
  have blank : entryPresent 0 = false := by decide
  exact ⟨pid, q', registered, process.mpr fun _ _ _ => blank, s, s', freed, allocated,
    kernel.mpr fun _ _ _ _ _ => blank⟩

/-- A heap whose pages hold an old page-table entry. -/
def dirtySched : Sched :=
  { zeroSched with userTables := fun _ k => if k = 7 then 0x00123007 else 0 }

/-- The table of a process registered there maps a page besides its stack. -/
theorem register_keeps_dirty :
    ∃ pid q', procRegister sampleInitMemory.memory1 0 30 dirtySched = .ok (pid, q') ∧
      ¬ OnlyPresent (firstTable q' pid) stackIdx := by
  obtain ⟨pid, q', registered, -⟩ := Prog.exists_of_check (s := dirtySched)
    (m := procRegister sampleInitMemory.memory1 0 30) (fun _ _ => true) (by decide +kernel)
  refine ⟨pid, q', registered, fun only => ?_⟩
  have clean := (onlyPresent_iff registered).mp only
  exact absurd (clean 7 (by decide) (by decide +kernel)) (by decide)

end TrashOS
