import TrashOS.Page.Tables

/-!
# `page.c`: page allocation

`page_new` and `page_free` keep the physical pages.  A freed page is noted in a
list node which lives on the kernel heap, so `page_free` calls `kmalloc` and
`page_new` calls `kfree`; these call `page_new` and `page_free` again.  The two
are first written with the heap functions as parameters (`pageNewWith`,
`pageFreeWith`), which is also the form for a heap context other than the kernel
one, and then tied together with a bound on the nesting depth.

A computation that runs out of depth stops, so whatever returns did so within
the depth given, as the C code does on a stack that is deep enough.
-/

namespace TrashOS

/-! ## The page free list -/

/-- `sizeof(page_free_node_t)` -/
def pageFreeNodeSize : ℕ := 8

/-- `node->pma` is the first word of a `page_free_node_t`. -/
def pmaField (node : ℕ) : ℕ := node

/-- `node->next` is the second word of a `page_free_node_t`. -/
def pageNextField (node : ℕ) : ℕ := Word32.add node 4

/-- `page_free_list` -/
def getPageFreeList : KM PageTables ℕ := Prog.read fun s => s.pages.freeList

/-- `page_free_list = node;` -/
def setPageFreeList (node : ℕ) : KM PageTables Unit :=
  Prog.update fun s => { s with pages := { s.pages with freeList := node } }

/-- Note in the log that `page_new` returns `pma`. -/
def recordPageNew (pma : ℕ) : KM PageTables Unit :=
  Prog.update fun s => { s with log := .pageNew pma s.pages :: s.log }

/-- `page_new`, with the heap function it calls. -/
def pageNewWith (kfree : ℕ → KM PageTables Unit) : KM PageTables ℕ := do
  let oldNode ← getPageFreeList
  if oldNode ≠ 0 then do
    let pma ← load (pmaField oldNode)
    let next ← load (pageNextField oldNode)
    setPageFreeList next
    kfree oldNode
    recordPageNew pma
    pure pma
  else do
    let pma ← Prog.read fun s => s.pages.heapEndPma
    Prog.update fun s =>
      { s with pages := { s.pages with heapEndPma := Word32.add pma pageSize } }
    recordPageNew pma
    pure pma

/-- `page_free`, with the heap function it calls. -/
def pageFreeWith (kmalloc : ℕ → KM PageTables ℕ) (vma : ℕ) : KM PageTables Unit := do
  let newNode ← kmalloc pageFreeNodeSize
  let pma ← onPages (pageGetPma vma)
  let next ← getPageFreeList
  store (pmaField newNode) pma
  store (pageNextField newNode) next
  onPages (pageUnmap vma)
  setPageFreeList newNode
  record (.pageRelease pma)

/-! ## The kernel heap -/

mutual

/-- `page_new`, nested at most `depth` deep. -/
def pageNew : ℕ → KM PageTables ℕ
  | 0 => Prog.stop .fuel
  | depth + 1 => pageNewWith (free (pageFree depth))

/-- `page_free`, nested at most `depth` deep. -/
def pageFree : ℕ → ℕ → KM PageTables Unit
  | 0, _ => Prog.stop .fuel
  | depth + 1, vma => pageFreeWith (alloc (pageNew depth) kmMinAllocSize) vma

end

/-- `kmalloc` -/
def kmalloc (depth bytes : ℕ) : KM PageTables ℕ := alloc (pageNew depth) kmMinAllocSize bytes

/-- `kalloc(PAGE_GET_DEFAULT, alignment, bytes)` -/
def kalloc (depth alignment bytes : ℕ) : KM PageTables ℕ := alloc (pageNew depth) alignment bytes

/-- `kmalloc_aligned` -/
def kmallocAligned (depth bytes alignment : ℕ) : KM PageTables ℕ :=
  alloc (pageNew depth) alignment bytes

/-- `kfree` -/
def kfree (depth vma : ℕ) : KM PageTables Unit := free (pageFree depth) vma

end TrashOS
