import TrashOS.Lib.Loop
import TrashOS.Page.Tables
import TrashOS.Vga.Kernel

/-!
# `init.c`: the first address space

`init_map_kernel` runs before paging is enabled, so a pointer is a physical address and
the page directory, the lookup table and every page table are words of one physical
memory: `init_page_struct` lies in the init section, and the page tables lie behind the
kernel image, where `init_page_next_pma` points.

The addresses of the linker script are a parameter.  `walk` is what the processor does
with the directory once paging is enabled.
-/

namespace TrashOS

/-- The symbols of the linker script that `init.c` uses, and `&init_page_struct`. -/
structure LinkSymbols where
  /-- `INIT_START` -/
  initStart : ℕ
  /-- `&init_page_struct` -/
  initPageStruct : ℕ
  /-- `INIT_BSS_END` -/
  initBssEnd : ℕ
  /-- `KERNEL_START_VMA` -/
  kernelStart : ℕ
  /-- `TEXT_START_VMA` -/
  textStart : ℕ
  /-- `RODATA_END_VMA` -/
  rodataEnd : ℕ
  /-- `BSS_END_VMA` -/
  bssEnd : ℕ
  /-- `KERNEL_END_VMA` -/
  kernelEnd : ℕ

/-- The variables of `init.c`. -/
structure InitState where
  /-- The word at each physical address -/
  mem : ℕ → ℕ
  /-- `init_page_next_pma` -/
  nextPma : ℕ
  /-- `init_page_next_vma` -/
  nextVma : ℕ
  /-- `init_vga_buffer_vma` -/
  vgaBufferVma : ℕ
  /-- `page_table_vma_offset` -/
  tableVmaOffset : ℕ
  /-- The memory each call of `init_page_map` left, the last one first.  No code reads it. -/
  maps : List (ℕ → ℕ)

/-- Code of `init.c`. -/
abbrev InitM (α : Type) : Type := Prog InitState Stop α

/-- `VGA_PADDR_BUFFER` -/
def vgaPaddrBuffer : ℕ := 0xB8000

/-- `sizeof(vga_entry_t)` -/
def vgaEntrySize : ℕ := 2

namespace LinkSymbols

variable (sym : LinkSymbols)

/-- `&init_page_struct.page_dir[idx]` -/
def pageDir (idx : ℕ) : ℕ := sym.initPageStruct + 4 * idx

/-- `&init_page_struct.page_table_lookup[idx]` -/
def pageTableLookup (idx : ℕ) : ℕ := sym.initPageStruct + pageSize + 4 * idx

/-- `&init_page_struct.stack_page` -/
def stackPage : ℕ := sym.initPageStruct + 2 * pageSize

/-- `KERNEL_END_VMA - KERNEL_START_VMA + INIT_BSS_END` -/
def kernelEndPma : ℕ := Word32.add (Word32.sub sym.kernelEnd sym.kernelStart) sym.initBssEnd

end LinkSymbols

/-! ## Memory and variables -/

/-- Read the word at `a`. -/
def initLoad (a : ℕ) : InitM ℕ := Prog.read fun s => s.mem a

/-- Write the word at `a`. -/
def initStore (a v : ℕ) : InitM Unit :=
  Prog.update fun s => { s with mem := Function.update s.mem a v }

/-- `init_page_next_pma = pma` -/
def setNextPma (pma : ℕ) : InitM Unit := Prog.update fun s => { s with nextPma := pma }

/-- `init_page_next_vma = vma` -/
def setNextVma (vma : ℕ) : InitM Unit := Prog.update fun s => { s with nextVma := vma }

/-- The body of `init_page_clear`: one 64-bit store. -/
def clearEntry (pma i : ℕ) (mem : ℕ → ℕ) : ℕ → ℕ :=
  Function.update (Function.update mem (Word32.add pma (8 * i)) 0) (Word32.add pma (8 * i + 4)) 0

/-- `init_page_clear` -/
def initPageClear (pma : ℕ) : InitM Unit :=
  Prog.update fun s => { s with mem := Loop.upto (pageSize / 8) (clearEntry pma) s.mem }

/-! ## Mapping a page -/

/-- `init_page_table_new` -/
def initPageTableNew (sym : LinkSymbols) (vma : ℕ) : InitM ℕ := do
  let nextPma ← Prog.read fun s => s.nextPma
  let tablePma := align nextPma pageSize
  initPageClear tablePma
  setNextPma (Word32.add tablePma pageSize)
  let offset ← Prog.read fun s => s.tableVmaOffset
  initStore (sym.pageTableLookup (vma >>> 22)) offset
  Prog.update fun s => { s with tableVmaOffset := Word32.add offset pageSize }
  pure tablePma

/-- `init_page_map` -/
def initPageMap (sym : LinkSymbols) (vma pma flags : ℕ) : InitM Unit := do
  let pageTableIdx := vma >>> 12 &&& 0x3ff
  let entry ← initLoad (sym.pageDir (vma >>> 22))
  let table ←
    if entry &&& pagePresent = 0 then do
      let newTable ← initPageTableNew sym vma
      initStore (sym.pageDir (vma >>> 22)) (newTable ||| pagePublic ||| pageWrite ||| pagePresent)
      initStore (Word32.add newTable (4 * pageTableIdx)) pma
      pure newTable
    else do
      let table := entry >>> 12 <<< 12
      let old ← initLoad (Word32.add table (4 * pageTableIdx))
      initStore (Word32.add table (4 * pageTableIdx)) (old &&& 0xfff ||| pma)
      pure table
  let word ← initLoad (Word32.add table (4 * pageTableIdx))
  initStore (Word32.add table (4 * pageTableIdx)) (word ||| flags)
  Prog.update fun s => { s with maps := s.mem :: s.maps }

/-! ## Mapping the kernel -/

/-- `for ( ; i < bound; i += PAGE_SIZE) body(i);` which leaves `i` as the loop does. -/
def forPages (bound : ℕ) (body : ℕ → InitM Unit) : ℕ → ℕ → InitM ℕ
  | 0, _ => Prog.stop .fuel
  | fuel + 1, i =>
      if i < bound then do
        body i
        forPages bound body fuel (Word32.add i pageSize)
      else
        pure i

/-- `n_new_tables` -/
def newTables (kernelEndPma nextPma : ℕ) : ℕ :=
  let kernelEndDirAligned := align kernelEndPma (pageEntries * pageSize)
  if nextPma < kernelEndDirAligned then 0
  else Word32.sub nextPma kernelEndDirAligned / (pageEntries * pageSize)

/-- One turn of the loop that turns the offsets in `page_table_lookup` into addresses. -/
def absoluteEntry (sym : LinkSymbols) (i : ℕ) (s : InitState) : InitState :=
  let offset := s.mem (sym.pageTableLookup i)
  if offset ≠ 0 then
    { s with
      mem := Function.update s.mem (sym.pageTableLookup i)
        (Word32.add offset (Word32.sub s.nextVma pageSize)) }
  else s

/-- `init_map_kernel` -/
def initMapKernel (sym : LinkSymbols) (fuel : ℕ) : InitM Unit := do
  setNextPma sym.kernelEndPma
  -- Identity map init section
  let _ ← forPages sym.initBssEnd
    (fun i => initPageMap sym i i (pageWrite ||| pagePresent)) fuel sym.initStart
  -- Map .text and .rodata (read-only)
  let i ← forPages (Word32.sub sym.rodataEnd sym.textStart)
    (fun i => initPageMap sym (Word32.add sym.textStart i) (Word32.add sym.initBssEnd i)
      (pagePublic ||| pagePresent)) fuel 0
  -- Map .data and .bss (read/write)
  let _ ← forPages (Word32.sub sym.bssEnd sym.textStart)
    (fun i => initPageMap sym (Word32.add sym.textStart i) (Word32.add sym.initBssEnd i)
      (pagePublic ||| pageWrite ||| pagePresent)) fuel i
  setNextVma sym.bssEnd
  -- Map page directory
  let vma ← Prog.read fun s => s.nextVma
  initPageMap sym vma (sym.pageDir 0) (pageWrite ||| pagePresent)
  setNextVma (Word32.add vma pageSize)
  -- Map page table lookup table
  let vma ← Prog.read fun s => s.nextVma
  initPageMap sym vma (sym.pageTableLookup 0) (pageWrite ||| pagePresent)
  setNextVma (Word32.add vma pageSize)
  -- Map stack page
  initPageMap sym (Word32.sub 0 pageSize) sym.stackPage (pageWrite ||| pagePresent)
  -- Map VGA space
  Prog.update fun s => { s with vgaBufferVma := s.nextVma }
  let i ← forPages (vgaWidthDefault * vgaHeightDefault * vgaEntrySize)
    (fun i => do
      let vma ← Prog.read fun s => s.nextVma
      initPageMap sym (Word32.add vma i) (Word32.add vgaPaddrBuffer i)
        (pagePublic ||| pageWrite ||| pagePresent)) fuel 0
  Prog.update fun s => { s with nextVma := Word32.add s.nextVma i }
  -- Map all dynamically-allocated page tables into kernel space
  let nextPma ← Prog.read fun s => s.nextPma
  let initAllocSize := Word32.sub nextPma sym.kernelEndPma
  let tablesSize := Word32.add initAllocSize
    (Word32.mul (newTables sym.kernelEndPma nextPma) pageSize)
  let _ ← forPages tablesSize
    (fun i => do
      let vma ← Prog.read fun s => s.nextVma
      initPageMap sym (Word32.add vma i) (Word32.add sym.kernelEndPma i)
        (pageWrite ||| pagePresent)) fuel 0
  Prog.update fun s => Loop.upto pageEntries (absoluteEntry sym) s
  Prog.update fun s => { s with nextVma := Word32.add s.nextVma tablesSize }

/-- The address a present entry of the directory or of a page table holds. -/
def entryFrame (entry : ℕ) : ℕ := entry >>> 12 <<< 12

/-- **What the processor finds for `vma`** when `cr3` holds `dir`: the physical address and
the flags of the page-table entry. -/
def walk (mem : ℕ → ℕ) (dir vma : ℕ) : Option (ℕ × ℕ) :=
  let table := mem (dir + 4 * (vma >>> 22))
  if entryPresent table then
    let entry := mem (entryFrame table + 4 * (vma >>> 12 &&& 0x3ff))
    if entryPresent entry then some (entryFrame entry + vma % pageSize, entry &&& 0xfff) else none
  else none

end TrashOS
