import TrashOS.Alloc

/-!
# `page.c`: page tables

The state of the page layer and the functions of `page.c` that work on a single
page-table entry.  A page table is reached through `page_table_lookup`, which
holds its virtual address, and that address is translated like any other.  The
table is kept here under its directory index: `table idx = none` is the pointer
that leads to no table, because it is null or because nothing is mapped at the
address it holds, and an access through it stops.  `handedTables` reads this state
off the memory that `init` leaves.

Every write of an entry and every `invlpg` is recorded in `trace`, which no code
reads.  `invlpg` is recorded as the C source passes it: the operand is the
parameter `vma` of the inline function, an object on the stack.

`PageTables.entryOf` is the view all proofs use: the entry of a page, by page
number rather than by the two indices.
-/

namespace TrashOS

/-- What the code did to the page tables, or to the TLB. -/
inductive TableEvent where
  /-- The entry of the page of `vma` was written. -/
  | write (vma entry : ℕ)
  /-- `invlpg(vma)` was executed; its memory operand is the parameter itself. -/
  | invlpg (vma : ℕ)

/-- The variables of `page.c`. -/
structure PageTables where
  /-- `page_dir` -/
  dir : ℕ → ℕ
  /-- The table an access through `page_table_lookup[idx]` reaches: none where the pointer is
  null, and none where the address it holds is not mapped. -/
  table : ℕ → Option (ℕ → ℕ)
  /-- `page_free_list` -/
  freeList : ℕ
  /-- `kernel_heap_end_pma` -/
  heapEndPma : ℕ
  trace : List TableEvent

/-- Code of `page.c` that only works on page tables. -/
abbrev PageM (α : Type) : Type := Prog PageTables Stop α

/-- `PAGE_ENTRIES` -/
def pageEntries : ℕ := 1024

/-- `page_get_dir_idx` -/
def pageGetDirIdx (vma : ℕ) : ℕ := vma >>> 22

/-- `page_get_table_idx` -/
def pageGetTableIdx (vma : ℕ) : ℕ := vma >>> 12 &&& 0x3ff

namespace PageTables

/-- `page_get_table(vma)[page_get_table_idx(vma)]`, if there is such a table. -/
def entryOf (pt : PageTables) (vma : ℕ) : Option ℕ :=
  (pt.table (pageGetDirIdx vma)).map fun t => t (pageGetTableIdx vma)

/-- The page tables with one entry changed. -/
def write (pt : PageTables) (vma entry : ℕ) : PageTables :=
  { pt with
    table := Function.update pt.table (pageGetDirIdx vma)
      ((pt.table (pageGetDirIdx vma)).map fun t =>
        Function.update t (pageGetTableIdx vma) entry)
    trace := .write vma entry :: pt.trace }

end PageTables

/-- `page_get_entry` -/
def pageGetEntry (vma : ℕ) : PageM ℕ := fun pt =>
  match pt.entryOf vma with
  | some entry => .ok (entry, pt)
  | none => .error (.noTable vma)

/-- `table[page_get_table_idx(vma)] = f(table[page_get_table_idx(vma)]);` -/
def updateEntry (vma : ℕ) (f : ℕ → ℕ) : PageM Unit := fun pt =>
  match pt.entryOf vma with
  | some old => .ok ((), pt.write vma (f old))
  | none => .error (.noTable vma)

/-- `invlpg` -/
def invlpg (vma : ℕ) : PageM Unit :=
  Prog.update fun pt => { pt with trace := .invlpg vma :: pt.trace }

/-- `page_remap` -/
def pageRemap (vma pma : ℕ) : PageM Unit := do
  updateEntry vma fun old => old &&& 0xfff ||| pma
  invlpg vma

/-- `page_unmap` -/
def pageUnmap (vma : ℕ) : PageM Unit := do
  updateEntry vma fun old => old &&& Word32.not pagePresent
  invlpg vma

/-- `page_delete` -/
def pageDelete (vma : ℕ) : PageM Unit := do
  updateEntry vma fun _ => 0
  invlpg vma

/-- `page_set_flags` -/
def pageSetFlags (vma flags : ℕ) : PageM Unit :=
  updateEntry vma fun old => old >>> 12 <<< 12 ||| flags

/-- `page_get_pma` -/
def pageGetPma (vma : ℕ) : PageM ℕ := do
  let entry ← pageGetEntry vma
  pure (entry &&& Word32.not 0xfff)

/-- `entry & PAGE_PRESENT` -/
def entryPresent (entry : ℕ) : Bool := decide (entry &&& pagePresent ≠ 0)

/-- `page_is_present` and `page_set_entry`, which the allocator calls. -/
instance : PageLayer PageTables where
  isPresent vma pt := (pageGetEntry vma pt).map fun r => entryPresent r.1
  setEntry vma entry pt := (updateEntry vma (fun _ => entry) pt).map Prod.snd

/-- A function of `page.c` as kernel code. -/
def onPages {α : Type} (m : PageM α) : KM PageTables α := fun s =>
  match m s.pages with
  | .ok (a, pages) => .ok (a, { s with pages := pages })
  | .error e => .error e

/-! ## Entries by page -/

theorem pageGetDirIdx_eq (vma : ℕ) : pageGetDirIdx vma = vma / pageSize / pageEntries := by
  rw [pageGetDirIdx, Nat.shiftRight_eq_div_pow, Nat.div_div_eq_div_mul]
  rfl

theorem pageGetTableIdx_eq (vma : ℕ) : pageGetTableIdx vma = vma / pageSize % pageEntries := by
  have mask : (0x3ff : ℕ) = 2 ^ 10 - 1 := rfl
  rw [pageGetTableIdx, Nat.shiftRight_eq_div_pow, mask, Word32.and_low]
  rfl

/-- The two indices together are the page number. -/
theorem indices_eq_iff {v w : ℕ} :
    pageGetDirIdx v = pageGetDirIdx w ∧ pageGetTableIdx v = pageGetTableIdx w ↔
      v / pageSize = w / pageSize := by
  rw [pageGetDirIdx_eq, pageGetDirIdx_eq, pageGetTableIdx_eq, pageGetTableIdx_eq]
  unfold pageEntries
  omega

namespace PageTables

variable {pt pt' : PageTables} {v w entry : ℕ}

/-- The entry belongs to the page. -/
theorem entryOf_congr (same : v / pageSize = w / pageSize) : pt.entryOf v = pt.entryOf w := by
  obtain ⟨dirIdx, tableIdx⟩ := indices_eq_iff.mpr same
  unfold entryOf
  rw [dirIdx, tableIdx]

@[simp] theorem write_dir : (pt.write v entry).dir = pt.dir := rfl
@[simp] theorem write_freeList : (pt.write v entry).freeList = pt.freeList := rfl
@[simp] theorem write_heapEndPma : (pt.write v entry).heapEndPma = pt.heapEndPma := rfl

/-- The page that was written has the new entry, if it has a table. -/
theorem entryOf_write_same (same : w / pageSize = v / pageSize) :
    (pt.write v entry).entryOf w = (pt.entryOf v).map fun _ => entry := by
  rw [entryOf_congr same]
  unfold entryOf write
  simp only [Function.update_self]
  cases pt.table (pageGetDirIdx v) with
  | none => rfl
  | some t => simp

/-- The other pages keep theirs. -/
theorem entryOf_write_other (other : w / pageSize ≠ v / pageSize) :
    (pt.write v entry).entryOf w = pt.entryOf w := by
  unfold entryOf write
  by_cases dirIdx : pageGetDirIdx w = pageGetDirIdx v
  · have tableIdx : pageGetTableIdx w ≠ pageGetTableIdx v := fun tableIdx =>
      other (indices_eq_iff.mp ⟨dirIdx, tableIdx⟩)
    simp only [dirIdx, Function.update_self]
    cases pt.table (pageGetDirIdx v) with
    | none => rfl
    | some t => simp [tableIdx]
  · simp only [Function.update_of_ne dirIdx]

/-- Whether a page has a table is not changed by writing entries. -/
theorem entryOf_write_isSome :
    ((pt.write v entry).entryOf w).isSome = (pt.entryOf w).isSome := by
  by_cases same : w / pageSize = v / pageSize
  · rw [entryOf_write_same same, entryOf_congr same, Option.isSome_map]
  · rw [entryOf_write_other same]

end PageTables

/-! ## The functions on one entry -/

section Runs

variable {pt pt' : PageTables} {v w entry pma flags : ℕ} {f : ℕ → ℕ} {u : Unit}

theorem pageGetEntry_eq_ok :
    pageGetEntry v pt = .ok (entry, pt') ↔ pt.entryOf v = some entry ∧ pt' = pt := by
  unfold pageGetEntry
  cases pt.entryOf v with
  | none => simp
  | some old => simp [eq_comm]

theorem updateEntry_eq_ok :
    updateEntry v f pt = .ok (u, pt') ↔
      ∃ old, pt.entryOf v = some old ∧ pt' = pt.write v (f old) := by
  unfold updateEntry
  cases pt.entryOf v with
  | none => simp
  | some old => simp [eq_comm]

theorem pageGetPma_eq_ok :
    pageGetPma v pt = .ok (pma, pt') ↔
      ∃ entry, pt.entryOf v = some entry ∧ pma = entry &&& Word32.not 0xfff ∧ pt' = pt := by
  unfold pageGetPma
  rw [Prog.bind_eq_ok]
  constructor
  · rintro ⟨entry, pt₁, read, final⟩
    obtain ⟨some, rfl⟩ := pageGetEntry_eq_ok.mp read
    cases final
    exact ⟨entry, some, rfl, rfl⟩
  · rintro ⟨entry, some, rfl, rfl⟩
    exact ⟨entry, pt', pageGetEntry_eq_ok.mpr ⟨some, rfl⟩, rfl⟩

theorem pageUnmap_eq_ok :
    pageUnmap v pt = .ok (u, pt') ↔
      ∃ old, pt.entryOf v = some old ∧
        pt' = { (pt.write v (old &&& Word32.not pagePresent)) with
          trace := .invlpg v :: (pt.write v (old &&& Word32.not pagePresent)).trace } := by
  unfold pageUnmap
  rw [Prog.bind_eq_ok]
  constructor
  · rintro ⟨u, pt₁, update, flush⟩
    obtain ⟨old, some, rfl⟩ := updateEntry_eq_ok.mp update
    cases flush
    exact ⟨old, some, rfl⟩
  · rintro ⟨old, some, rfl⟩
    exact ⟨(), _, updateEntry_eq_ok.mpr ⟨old, some, rfl⟩, rfl⟩

theorem setEntry_eq_ok :
    PageLayer.setEntry v entry pt = .ok pt' ↔
      ∃ old, pt.entryOf v = some old ∧ pt' = pt.write v entry := by
  change (updateEntry v (fun _ => entry) pt).map Prod.snd = _ ↔ _
  unfold updateEntry
  cases pt.entryOf v with
  | none => simp [Except.map]
  | some old => simp [Except.map, eq_comm]

variable {s s' : Sys PageTables}

theorem pageSetEntry_eq_ok :
    pageSetEntry v entry s = .ok (u, s') ↔
      ∃ old, s.pages.entryOf v = some old ∧
        s' = { s with pages := s.pages.write v entry, log := .setEntry v entry :: s.log } := by
  unfold pageSetEntry
  cases result : PageLayer.setEntry v entry s.pages with
  | error e =>
      constructor
      · intro returned
        cases returned
      · rintro ⟨old, some, -⟩
        rw [setEntry_eq_ok.mpr ⟨old, some, rfl⟩] at result
        cases result
  | ok pages =>
      obtain ⟨old, some, rfl⟩ := setEntry_eq_ok.mp result
      constructor
      · intro returned
        cases returned
        exact ⟨old, some, rfl⟩
      · rintro ⟨_, _, rfl⟩
        rfl

theorem onPages_eq_ok {α : Type} {m : PageM α} {a : α} :
    onPages m s = .ok (a, s') ↔
      ∃ pages, m s.pages = .ok (a, pages) ∧ s' = { s with pages := pages } := by
  unfold onPages
  cases m s.pages with
  | error e => simp
  | ok r =>
      obtain ⟨b, pages⟩ := r
      constructor
      · intro returned
        cases returned
        exact ⟨pages, rfl, rfl⟩
      · rintro ⟨pages', returned, rfl⟩
        cases returned
        rfl

end Runs

/-! ## Presence -/

namespace PageTables

variable {pt pt' : PageTables} {v w entry : ℕ}

theorem isPresent_eq_ok {present : Bool} :
    PageLayer.isPresent v pt = .ok present ↔
      ∃ entry, pt.entryOf v = some entry ∧ present = entryPresent entry := by
  change (pageGetEntry v pt).map (fun r => entryPresent r.1) = _ ↔ _
  unfold pageGetEntry
  cases pt.entryOf v with
  | none => simp [Except.map]
  | some old => simp [Except.map, eq_comm]

/-- An access to `vma` finds a present page. -/
theorem mapped_iff :
    PageLayer.mapped pt v = true ↔ ∃ entry, pt.entryOf v = some entry ∧ entryPresent entry := by
  unfold PageLayer.mapped
  cases result : PageLayer.isPresent v pt with
  | error e =>
      simp only [Bool.false_eq_true, false_iff]
      rintro ⟨entry, some, -⟩
      rw [isPresent_eq_ok.mpr ⟨entry, some, rfl⟩] at result
      cases result
  | ok present =>
      obtain ⟨entry, some, rfl⟩ := isPresent_eq_ok.mp result
      simp [some]

/-- Only the tables matter. -/
theorem mapped_of_table (same : pt'.table = pt.table) :
    PageLayer.mapped pt' v = PageLayer.mapped pt v := by
  have entry : pt'.entryOf v = pt.entryOf v := by
    unfold entryOf
    rw [same]
  rw [Bool.eq_iff_iff, mapped_iff, mapped_iff, entry]

theorem mapped_congr (same : v / pageSize = w / pageSize) :
    PageLayer.mapped pt v = PageLayer.mapped pt w := by
  rw [Bool.eq_iff_iff, mapped_iff, mapped_iff, entryOf_congr same]

theorem mapped_write_other (other : w / pageSize ≠ v / pageSize) :
    PageLayer.mapped (pt.write v entry) w = PageLayer.mapped pt w := by
  rw [Bool.eq_iff_iff, mapped_iff, mapped_iff, entryOf_write_other other]

/-- A page written with the present bit is present. -/
theorem mapped_write_same {old : ℕ} (some : pt.entryOf v = some old)
    (present : entryPresent entry = true) (same : w / pageSize = v / pageSize) :
    PageLayer.mapped (pt.write v entry) w = true := by
  rw [mapped_iff, entryOf_write_same same, some]
  exact ⟨entry, rfl, present⟩

end PageTables

/-- The entries `alloc` writes have the present bit. -/
theorem entryPresent_or (pma : ℕ) : entryPresent (pma ||| pageWrite ||| pagePresent) = true := by
  have bit : (pma ||| pageWrite ||| pagePresent) % 2 = 1 := by
    rw [Nat.mod_two_eq_one_iff_testBit_zero, Nat.testBit_or]
    simp [pagePresent]
  have mask : (pma ||| pageWrite ||| pagePresent) &&& pagePresent = 1 := by
    rw [← bit]
    exact Nat.and_one_is_mod _
  unfold entryPresent
  rw [mask]
  rfl

end TrashOS
