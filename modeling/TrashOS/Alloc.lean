import TrashOS.Machine

/-!
# `alloc.c`: the kernel memory allocator

A function-by-function translation.  A heap is a sequence of chunks, each
preceded by an 8-byte descriptor `{size_prev, size}` whose low bits carry the
`FREE` flag; free chunks hold their free list node `{prev, next}` in place.

The two callbacks are parameters: `alloc` takes its page supplier as the C
function does, and `free` and the functions above it take the `page_free` of
`page.c`, which for the kernel heap calls `kmalloc` again (`TrashOS.Page` ties
that knot).  Long C bodies are cut at their own comments: `allocSplit`,
`extendHeap`, `freeMergeNext`, `freeMergePrev` and `freeRelease` are consecutive
pieces of `alloc` and `free`.
-/

namespace TrashOS

variable {π : Type} [PageLayer π]

/-! ## Descriptors and nodes -/

/-- `desc->size_prev` is the first word of a descriptor. -/
def sizePrevField (desc : ℕ) : ℕ := desc

/-- `desc->size` is the second word of a descriptor. -/
def sizeField (desc : ℕ) : ℕ := Word32.add desc 4

/-- `node->prev` is the first word of a free list node. -/
def prevField (node : ℕ) : ℕ := node

/-- `node->next` is the second word of a free list node. -/
def nextField (node : ℕ) : ℕ := Word32.add node 4

/-- `alloc_get_desc`: the descriptor before a chunk. -/
def allocGetDesc (vma : ℕ) : ℕ := Word32.sub vma chunkDescSize

/-- `size & ~(size_t)0x7` -/
def clearFlags (size : ℕ) : ℕ := size &&& Word32.not 7

/-- `alloc_get_size`: the size of a chunk, flags cleared. -/
def allocGetSize (node : ℕ) : KM π ℕ := do
  let size ← load (sizeField (allocGetDesc node))
  pure (clearFlags size)

/-- `alloc_get_size_prev`: the size of the chunk before, flags cleared. -/
def allocGetSizePrev (node : ℕ) : KM π ℕ := do
  let sizePrev ← load (sizePrevField (allocGetDesc node))
  pure (clearFlags sizePrev)

/-- `alloc_get_next_desc`: the descriptor after a chunk. -/
def allocGetNextDesc (node : ℕ) : KM π ℕ := do
  let size ← allocGetSize node
  pure (Word32.add node size)

/-- `alloc_get_size_next`: the size of the chunk after, flags cleared. -/
def allocGetSizeNext (node : ℕ) : KM π ℕ := do
  let desc ← allocGetNextDesc node
  let size ← load (sizeField desc)
  pure (clearFlags size)

/-- `alloc_get_prev_desc`: the descriptor of the chunk before. -/
def allocGetPrevDesc (node : ℕ) : KM π ℕ := do
  let sizePrev ← allocGetSizePrev node
  pure (Word32.sub (Word32.sub node sizePrev) (2 * chunkDescSize))

/-- `alloc_get_node`: the free list node behind a descriptor. -/
def allocGetNode (chunk : ℕ) : ℕ := Word32.add chunk chunkDescSize

/-- `if (prev) prev->next = next; else ctxt->free_list = next;` -/
def relinkNext (prev next : ℕ) : KM π Unit :=
  if prev ≠ 0 then store (nextField prev) next else setFreeList next

/-- `if (next) next->prev = prev;` -/
def relinkPrev (next prev : ℕ) : KM π Unit :=
  if next ≠ 0 then store (prevField next) prev else pure ()

/-- `alloc_node_unlink` -/
def allocNodeUnlink (node : ℕ) : KM π Unit := do
  let prev ← load (prevField node)
  let next ← load (nextField node)
  relinkNext prev next
  let next ← load (nextField node)
  let prev ← load (prevField node)
  relinkPrev next prev

/-- `alloc_node_add` -/
def allocNodeAdd (node : ℕ) : KM π Unit := do
  store (prevField node) 0
  let head ← getFreeList
  store (nextField node) head
  relinkPrev head node
  setFreeList node

/-- `alloc_clear_free` -/
def allocClearFree (vma : ℕ) : KM π Unit := do
  let size ← load (sizeField (allocGetDesc vma))
  store (sizeField (allocGetDesc vma)) (size &&& Word32.not kmChunkFree)
  let desc ← allocGetNextDesc vma
  let sizePrev ← load (sizePrevField desc)
  store (sizePrevField desc) (sizePrev &&& Word32.not kmChunkFree)

/-- `alloc_set_free` -/
def allocSetFree (vma : ℕ) : KM π Unit := do
  let size ← load (sizeField (allocGetDesc vma))
  store (sizeField (allocGetDesc vma)) (size ||| kmChunkFree)
  let desc ← allocGetNextDesc vma
  let sizePrev ← load (sizePrevField desc)
  store (sizePrevField desc) (sizePrev ||| kmChunkFree)

/-! ## `alloc` -/

/-- `alloc`, "We found a memory chunk that can be split". -/
def allocSplit (bytes n : ℕ) : KM π Unit := do
  let chunk := allocGetDesc n
  let newChunk := Word32.add n bytes
  store (sizePrevField newChunk) bytes
  let size ← load (sizeField chunk)
  store (sizeField newChunk) (Word32.sub (Word32.sub size bytes) chunkDescSize)
  let newSize ← load (sizeField newChunk)
  store (sizeField newChunk) (newSize ||| kmChunkFree)
  let nextDesc ← allocGetNextDesc n
  let newSize ← load (sizeField newChunk)
  store (sizePrevField nextDesc) (newSize ||| kmChunkFree)
  store (sizeField chunk) bytes
  let newNode := Word32.add (Word32.add n bytes) chunkDescSize
  let prev ← load (prevField n)
  let next ← load (nextField n)
  store (prevField newNode) prev
  store (nextField newNode) next
  let prev ← load (prevField newNode)
  relinkNext prev newNode
  let next ← load (nextField newNode)
  relinkPrev next newNode

/-- `alloc`, the search of the free list.  `none` means nothing suitable. -/
def allocSearch (bytes : ℕ) : ℕ → ℕ → KM π (Option ℕ)
  | 0, _ => Prog.stop .fuel
  | fuel + 1, n =>
      if n = 0 then
        pure none
      else do
        let size ← allocGetSize n
        if size = bytes then do
          allocNodeUnlink n
          allocClearFree n
          pure (some n)
        else if size > Word32.add bytes chunkDescSize then do
          allocSplit bytes n
          pure (some n)
        else do
          let next ← load (nextField n)
          allocSearch bytes fuel next

/-- A walk that takes more steps than there are addresses never ends. -/
def searchFuel : ℕ := 2 ^ 32 + 1

/-- A page loop that takes more steps than there are pages never ends. -/
def pageFuel : ℕ := 2 ^ 20 + 1

/-- `alloc`, "allocate/map as many new physical pages as needed". -/
def allocMapPages (getPagePma : KM π ℕ) (bound : ℕ) : ℕ → ℕ → KM π Unit
  | 0, _ => Prog.stop .fuel
  | fuel + 1, pageVma =>
      if pageVma < bound then do
        let pagePma ← getPagePma
        pageSetEntry pageVma (pagePma ||| pageWrite ||| pagePresent)
        allocMapPages getPagePma bound fuel (Word32.add pageVma pageSize)
      else
        pure ()

/-- `alloc`, "Add unused space to free list if necessary". -/
def allocPad (alignment : ℕ) : KM π Unit := do
  let heapEnd ← getEnd
  let freeBlockSize := Word32.sub (align heapEnd alignment) heapEnd
  if freeBlockSize ≠ 0 then
    if freeBlockSize ≤ chunkDescSize then
      Prog.stop (.die "alloc: fatal: free block below min size: %u\n" freeBlockSize)
    else do
      let freeChunk := allocGetDesc heapEnd
      store (sizeField freeChunk) (Word32.sub freeBlockSize chunkDescSize)
      let size ← load (sizeField freeChunk)
      store (sizeField freeChunk) (size ||| kmChunkFree)
      let freeChunkNext ← allocGetNextDesc heapEnd
      let size ← load (sizeField freeChunk)
      store (sizePrevField freeChunkNext) size
      allocNodeAdd heapEnd
      setEnd (Word32.add heapEnd freeBlockSize)
  else
    pure ()

/-- `alloc`, "Initialize chunk descriptors". -/
def allocFinish (vma bytes : ℕ) : KM π Unit := do
  store (sizeField (allocGetDesc vma)) bytes
  let chunkNext ← allocGetNextDesc vma
  store (sizePrevField chunkNext) bytes
  store (sizeField chunkNext) 0

/-- `alloc` from the label `extend_heap` on. -/
def extendHeap (getPagePma : KM π ℕ) (alignment bytes : ℕ) : KM π ℕ := do
  allocPad alignment
  let oldEnd ← getEnd
  setEnd (Word32.add oldEnd (Word32.add bytes chunkDescSize))
  allocMapPages getPagePma (Word32.add (Word32.add oldEnd bytes) chunkDescSize)
    pageFuel (align oldEnd pageSize)
  allocFinish oldEnd bytes
  pure oldEnd

/-- The request size `alloc` works with. -/
def roundBytes (bytes : ℕ) : ℕ :=
  if bytes ≠ 0 then align bytes kmMinAllocSize else kmMinAllocSize

/-- `alloc` -/
def alloc (getPagePma : KM π ℕ) (alignment bytes : ℕ) : KM π ℕ :=
  let bytes := roundBytes bytes
  if alignment ≠ kmMinAllocSize then
    extendHeap getPagePma alignment bytes
  else do
    let n ← getFreeList
    let found ← allocSearch bytes searchFuel n
    match found with
    | some vma => pure vma
    | none => extendHeap getPagePma alignment bytes

/-! ## `free` -/

/-- `free`, "Try to combine with next memory chunk". -/
def freeMergeNext (chunkNext vma : ℕ) : KM π Unit := do
  let chunk := allocGetDesc vma
  let nextSize ← load (sizeField chunkNext)
  if nextSize &&& kmChunkFree ≠ 0 then do
    allocNodeUnlink (allocGetNode chunkNext)
    let size ← load (sizeField chunk)
    let sizeNext ← allocGetSizeNext vma
    store (sizeField chunk) (Word32.add size (Word32.add sizeNext chunkDescSize))
    let desc ← allocGetNextDesc vma
    let size ← load (sizeField chunk)
    store (sizePrevField desc) size
  else
    pure ()

/-- `free`, "Try to combine with previous memory chunk".  Returns the new
`vma`. -/
def freeMergePrev (chunkPrev vma : ℕ) : KM π ℕ := do
  let chunk := allocGetDesc vma
  let sizePrev ← load (sizePrevField chunk)
  if sizePrev &&& kmChunkFree ≠ 0 then do
    let node := allocGetNode chunkPrev
    allocNodeUnlink node
    let sizePrev ← allocGetSizePrev vma
    let size ← allocGetSize vma
    store (sizeField chunkPrev) (Word32.add (Word32.add sizePrev size) chunkDescSize)
    let vma := allocGetNode chunkPrev
    let desc ← allocGetNextDesc vma
    let size ← load (sizeField chunkPrev)
    store (sizePrevField desc) size
    pure vma
  else
    pure vma

/-- `free`, "Free as many pages as necessary". -/
def freePages (pageFree : ℕ → KM π Unit) (vma : ℕ) : ℕ → ℕ → KM π Unit
  | 0, _ => Prog.stop .fuel
  | fuel + 1, page =>
      if page ≥ vma then do
        record (.pageFree page)
        pageFree page
        freePages pageFree vma fuel (Word32.sub page pageSize)
      else
        pure ()

/-- `free`, "Check to see if block is at the end of the heap". -/
def freeRelease (pageFree : ℕ → KM π Unit) (vma : ℕ) : KM π Unit := do
  let size ← allocGetSize vma
  let heapEnd ← getEnd
  if Word32.add (Word32.add vma size) chunkDescSize = heapEnd then do
    freePages pageFree vma pageFuel (heapEnd &&& Word32.not 0xfff)
    setEnd vma
  else do
    allocSetFree vma
    allocNodeAdd vma

/-- `free` -/
def free (pageFree : ℕ → KM π Unit) (vma : ℕ) : KM π Unit := do
  let chunkNext ← allocGetNextDesc vma
  let chunkPrev ← allocGetPrevDesc vma
  freeMergeNext chunkNext vma
  let vma ← freeMergePrev chunkPrev vma
  freeRelease pageFree vma

/-! ## New heaps -/

/-- `if (!page_is_present(vma)) page_set_entry(vma, page_new() | …);` -/
def mapIfAbsent (pageNew : KM π ℕ) (vma : ℕ) : KM π Unit := do
  let present ← pageIsPresent vma
  if present = false then do
    let pma ← pageNew
    pageSetEntry vma (pma ||| pageWrite ||| pagePresent)
  else
    pure ()

/-- `alloc_new_heap` -/
def allocNewHeap (pageNew : KM π ℕ) (heapStart : ℕ) : KM π AllocCtxt := do
  let firstChunk := align heapStart kmMinAllocSize
  mapIfAbsent pageNew firstChunk
  store (sizePrevField firstChunk) 0
  pure { freeList := 0, start := heapStart, heapEnd := Word32.add firstChunk chunkDescSize }

/-- `ctxt = alloc_new_heap(heap_start)`, as in `kmalloc_init`. -/
def initHeap (pageNew : KM π ℕ) (heapStart : ℕ) : KM π Unit := do
  let ctxt ← allocNewHeap pageNew heapStart
  Prog.update fun s => { s with ctxt := ctxt }

end TrashOS
