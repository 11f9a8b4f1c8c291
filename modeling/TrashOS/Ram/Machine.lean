import TrashOS.Init.Built
import TrashOS.Page.Tlb

/-!
# `page.c` on physical memory

Once paging is enabled the page directory, the lookup table and the page tables are words
of physical memory, and `page.c` reaches them through virtual addresses: `page_dir` and
`page_table_lookup` are pointers, and so is every entry of the lookup table.  Each access
is translated by the very tables it is about.

The functions below do just that, on one physical memory.  An access to an address that
is not mapped is a page fault.  Write protection does not matter: `page_enable` leaves
`CR0.WP` clear, and all of this runs in ring 0.  `invlpg` changes no word of memory.
-/

namespace TrashOS

/-- Why code stops on this machine. -/
inductive Fault where
  | pageFault (vma : ℕ)
  deriving DecidableEq, Repr

/-- Physical memory, `cr3`, and the two pointers of `page.c`. -/
structure Ram where
  /-- The word at each physical address -/
  mem : ℕ → ℕ
  cr3 : ℕ
  /-- `page_dir` -/
  pageDir : ℕ
  /-- `page_table_lookup` -/
  pageTableLookup : ℕ

/-- Kernel code with paging enabled. -/
abbrev RamM (α : Type) : Type := Prog Ram Fault α

namespace Ram

/-! ## Accesses -/

/-- The physical address of `vma`. -/
def translate (r : Ram) (vma : ℕ) : Option ℕ := (walk r.mem r.cr3 vma).map Prod.fst

/-- Read the word at `vma`. -/
def load (vma : ℕ) : RamM ℕ := fun r =>
  match r.translate vma with
  | some a => .ok (r.mem a, r)
  | none => .error (.pageFault vma)

/-- The word at a physical address is changed. -/
def written (r : Ram) (a v : ℕ) : Ram := { r with mem := Function.update r.mem a v }

/-- Write the word at `vma`. -/
def store (vma v : ℕ) : RamM Unit := fun r =>
  match r.translate vma with
  | some a => .ok ((), r.written a v)
  | none => .error (.pageFault vma)

/-- `&page_dir[idx]` -/
def dirEntry (r : Ram) (idx : ℕ) : ℕ := Word32.add r.pageDir (4 * idx)

/-- `&page_table_lookup[idx]` -/
def lookupEntry (r : Ram) (idx : ℕ) : ℕ := Word32.add r.pageTableLookup (4 * idx)

/-- `&table[page_get_table_idx(vma)]` -/
def tableEntry (table vma : ℕ) : ℕ := Word32.add table (4 * pageGetTableIdx vma)

/-! ## `page.c` -/

/-- `page_get_table` -/
def pageGetTable (vma : ℕ) : RamM ℕ := do
  let a ← Prog.read fun r => r.lookupEntry (pageGetDirIdx vma)
  load a

/-- `page_get_entry` -/
def pageGetEntry (vma : ℕ) : RamM ℕ := do
  let table ← pageGetTable vma
  load (tableEntry table vma)

/-- `page_get_pma` -/
def pageGetPma (vma : ℕ) : RamM ℕ := do
  let table ← pageGetTable vma
  let entry ← load (tableEntry table vma)
  pure (entry &&& Word32.not 0xfff)

/-- `page_is_present` -/
def pageIsPresent (vma : ℕ) : RamM Bool := do
  let entry ← pageGetEntry vma
  pure (entryPresent entry)

/-- `page_set_entry` -/
def pageSetEntry (vma entry : ℕ) : RamM Unit := do
  let table ← pageGetTable vma
  store (tableEntry table vma) entry

/-- `page_remap` -/
def pageRemap (vma pma : ℕ) : RamM Unit := do
  let table ← pageGetTable vma
  let old ← load (tableEntry table vma)
  store (tableEntry table vma) (old &&& 0xfff ||| pma)

/-- `page_unmap` -/
def pageUnmap (vma : ℕ) : RamM Unit := do
  let table ← pageGetTable vma
  let old ← load (tableEntry table vma)
  store (tableEntry table vma) (old &&& Word32.not pagePresent)

/-- `page_delete` -/
def pageDelete (vma : ℕ) : RamM Unit := do
  let table ← pageGetTable vma
  store (tableEntry table vma) 0

/-- `page_set_flags` -/
def pageSetFlags (vma flags : ℕ) : RamM Unit := do
  let table ← pageGetTable vma
  let old ← load (tableEntry table vma)
  store (tableEntry table vma) (old >>> 12 <<< 12 ||| flags)

/-- `page_set_dir_entry` -/
def pageSetDirEntry (idx tableVma entry : ℕ) : RamM Unit := do
  let lookup ← Prog.read fun r => r.lookupEntry idx
  store lookup tableVma
  let dir ← Prog.read fun r => r.dirEntry idx
  store dir entry

/-- `page_table_map` -/
def pageTableMap (tableVma vma flags : ℕ) : RamM Unit := do
  let lookup ← Prog.read fun r => r.lookupEntry (pageGetDirIdx vma)
  store lookup tableVma
  let pma ← pageGetPma tableVma
  let dir ← Prog.read fun r => r.dirEntry (pageGetDirIdx vma)
  store dir (pma ||| flags)

/-- `page_table_unmap_idx` -/
def pageTableUnmapIdx (idx : ℕ) : RamM Unit := pageSetDirEntry idx 0 0

/-- `page_table_unmap` -/
def pageTableUnmap (vma : ℕ) : RamM Unit := pageTableUnmapIdx (pageGetDirIdx vma)

/-! ## What the processor reads -/

variable (r : Ram)

/-- The directory entry of a 4 MiB region. -/
def dirWord (idx : ℕ) : ℕ := r.mem (r.cr3 + 4 * idx)

/-- The frame of the page table of a region. -/
def tableFrame (idx : ℕ) : ℕ := entryFrame (r.dirWord idx)

/-- The `j`th word of the page table of a region. -/
def tableWord (idx j : ℕ) : ℕ := r.mem (r.tableFrame idx + 4 * j)

/-- The present entry of a page. -/
def pageEntry (page : ℕ) : Option ℕ :=
  if entryPresent (r.dirWord (page / pageEntries)) then
    let entry := r.tableWord (page / pageEntries) (page % pageEntries)
    if entryPresent entry then some entry else none
  else none

variable {r} {vma v a : ℕ} {u : Unit} {r' : Ram}

/-- The processor finds the entry of the page. -/
theorem walk_eq (r : Ram) (vma : ℕ) :
    walk r.mem r.cr3 vma = (r.pageEntry (vma / pageSize)).map fun entry =>
      (entryFrame entry + vma % pageSize, entry &&& 0xfff) := by
  have dirIdx : vma >>> 22 = vma / pageSize / pageEntries := pageGetDirIdx_eq vma
  have tableIdx : vma >>> 12 &&& 0x3ff = vma / pageSize % pageEntries := pageGetTableIdx_eq vma
  unfold walk pageEntry tableWord tableFrame dirWord
  rw [dirIdx, tableIdx]
  dsimp only
  split_ifs <;> rfl

theorem translate_eq (r : Ram) (vma : ℕ) :
    r.translate vma =
      (r.pageEntry (vma / pageSize)).map fun entry => entryFrame entry + vma % pageSize := by
  rw [translate, walk_eq, Option.map_map]
  rfl

theorem load_of_translate (there : r.translate vma = some a) :
    load vma r = .ok (r.mem a, r) := by
  unfold load
  rw [there]

theorem store_of_translate (there : r.translate vma = some a) :
    store vma v r = .ok ((), r.written a v) := by
  unfold store
  rw [there]

theorem load_fault (none : r.translate vma = none) : load vma r = .error (.pageFault vma) := by
  unfold load
  rw [none]

@[simp] theorem written_cr3 (r : Ram) (a v : ℕ) : (r.written a v).cr3 = r.cr3 := rfl
@[simp] theorem written_pageDir (r : Ram) (a v : ℕ) : (r.written a v).pageDir = r.pageDir := rfl
@[simp] theorem written_pageTableLookup (r : Ram) (a v : ℕ) :
    (r.written a v).pageTableLookup = r.pageTableLookup := rfl

theorem written_mem_same (r : Ram) (a v : ℕ) : (r.written a v).mem a = v :=
  Function.update_self _ _ _

theorem written_mem_other {b : ℕ} (r : Ram) (v : ℕ) (other : b ≠ a) :
    (r.written a v).mem b = r.mem b :=
  Function.update_of_ne other _ _

end Ram

end TrashOS
