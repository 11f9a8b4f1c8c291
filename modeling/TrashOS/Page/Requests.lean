import TrashOS.Heap.FirstFit
import TrashOS.Page.Kernel

/-!
# Request sizes near the top of the address space

`alloc` rounds the request up, compares chunk sizes with the request and a
descriptor, and adds both to the end of the heap, all in 32-bit arithmetic and
without a check.  A call that returns serves its request in full exactly if
neither the request with its descriptor nor, where the heap must be extended,
the new end wraps around (`whole_request_iff`).

The other calls return too.  A request so large that rounding wraps is served
from any chunk, or by an empty block at the end; where only the new end wraps,
the end of the heap moves down, below the block that is returned.
-/

namespace TrashOS

variable {π : Type} [PageLayer π] {s s' : Sys π} {H : Heap} {bytes v : ℕ}

/-- **The request was served in full**: the size field of the chunk covers it, the
block lies below the end of the heap, and no sum on the way wrapped around. -/
structure WholeRequest (s s' : Sys π) (bytes v : ℕ) : Prop where
  size : max bytes kmMinAllocSize ≤ s'.mem (sizeField (allocGetDesc v))
  inside : v + bytes ≤ s'.ctxt.heapEnd
  rounding : bytes ≤ roundBytes bytes
  threshold : Word32.add (roundBytes bytes) chunkDescSize = roundBytes bytes + chunkDescSize
  newEnd : s.ctxt.heapEnd ≤ s'.ctxt.heapEnd

/-- The request and its descriptor fit in a word, and so does the new end where
nothing in the free list can serve the request. -/
def RequestFits (H : Heap) (bytes : ℕ) : Prop :=
  bytes + 15 < 2 ^ 32 ∧
    (CanServe H (roundBytes bytes) ∨ H.stop + roundBytes bytes + chunkDescSize < 2 ^ 32)

/-! ## Where a returned block starts -/

/-- The search of a free list with a wrapped request returns a node of the list,
or leaves memory and context alone. -/
theorem allocSearch_returned {n : ℕ} :
    ∀ {fuel start : ℕ} {zs : List ℕ} {s s' : Sys π} {r : Option ℕ},
      (∀ x ∈ zs, x + 4 < 2 ^ 32) →
      PointerList.Singly 0 (fun x => s.mem (x + 4)) start zs →
      allocSearch n fuel start s = .ok (r, s') →
      (∃ v ∈ zs, r = some v) ∨ (r = none ∧ s'.mem = s.mem ∧ s'.ctxt = s.ctxt ∧ s'.pages = s.pages)
  | 0, _, _, _, _, _, _, _, returned => by cases returned
  | fuel + 1, start, zs, s, s', r, words, list, returned => by
      unfold allocSearch at returned
      by_cases null : start = 0
      · rw [if_pos null] at returned
        cases returned
        exact Or.inr ⟨rfl, rfl, rfl, rfl⟩
      · rw [if_neg null] at returned
        cases zs with
        | nil => exact absurd (PointerList.singly_nil.mp list) null
        | cons x zs =>
            obtain ⟨rfl, -, rest⟩ := PointerList.singly_cons.mp list
            rw [allocGetSize, Prog.bind_assoc, Prog.bind_of_ok rfl, Prog.bind_of_ok rfl] at returned
            split at returned
            · obtain ⟨_, _, -, returned⟩ := Prog.bind_eq_ok.mp returned
              obtain ⟨_, _, -, returned⟩ := Prog.bind_eq_ok.mp returned
              cases returned
              exact Or.inl ⟨start, List.mem_cons_self, rfl⟩
            · split at returned
              · obtain ⟨_, _, -, returned⟩ := Prog.bind_eq_ok.mp returned
                cases returned
                exact Or.inl ⟨start, List.mem_cons_self, rfl⟩
              · rw [Prog.bind_of_ok rfl] at returned
                have next : nextField start = start + 4 :=
                  nextField_eq (words start List.mem_cons_self)
                rcases allocSearch_returned (fun y member =>
                  words y (List.mem_cons_of_mem _ member)) (by rw [next]; exact rest) returned with
                  ⟨v, member, found⟩ | nothing
                · exact Or.inl ⟨v, List.mem_cons_of_mem _ member, found⟩
                · exact Or.inr nothing

/-- The extension without padding, whatever the request. -/
theorem extendHeap_kmMin (getPagePma : KM π ℕ) (n : ℕ) {heapEnd : ℕ}
    (atEnd : s.ctxt.heapEnd = heapEnd) (mult : heapEnd % 8 = 0) (word : heapEnd < 2 ^ 32) :
    extendHeap getPagePma kmMinAllocSize n s = (do
      allocMapPages getPagePma (Word32.add (Word32.add heapEnd n) chunkDescSize) pageFuel
        (align heapEnd pageSize)
      allocFinish heapEnd n
      pure heapEnd)
      { s with ctxt := { s.ctxt with
        heapEnd := Word32.add heapEnd (Word32.add n chunkDescSize) } } := by
  have ending : (getEnd : KM π ℕ) s = .ok (heapEnd, s) := by rw [← atEnd]; rfl
  have pad : allocPad kmMinAllocSize s = .ok ((), s) := by
    unfold allocPad
    rw [Prog.bind_of_ok ending, align_kmMin mult word, Word32.sub_eq le_rfl word, Nat.sub_self]
    rfl
  unfold extendHeap
  rw [Prog.bind_of_ok pad, Prog.bind_of_ok ending, Prog.bind_of_ok rfl]

/-- A returned block is a node of the free list or starts at the old end, for every
request and every supplier. -/
theorem alloc_vma {getPagePma : KM π ℕ} (ctx : HeapContext s H)
    (returned : alloc getPagePma kmMinAllocSize bytes s = .ok (v, s')) :
    v ∈ H.order ∨ v = H.stop := by
  have words : ∀ x ∈ H.order, x + 4 < 2 ^ 32 := by
    intro x listed
    obtain ⟨c, memC, -, rfl⟩ := Heap.mem_order.mp listed
    have range := H.range memC
    have bound := H.bound
    omega
  unfold alloc at returned
  rw [if_neg (not_not_intro rfl), Prog.bind_of_ok (m := getFreeList) rfl] at returned
  obtain ⟨r, t, search, returned⟩ := Prog.bind_eq_ok.mp returned
  rcases allocSearch_returned words ctx.rep.links.singly search with
    ⟨w, member, rfl⟩ | ⟨rfl, -, ctxt, -⟩
  · cases returned
    exact Or.inl member
  · have atEnd : t.ctxt.heapEnd = H.stop := by rw [ctxt, ctx.atEnd]
    change extendHeap getPagePma kmMinAllocSize (roundBytes bytes) t = _ at returned
    rw [extendHeap_kmMin _ _ atEnd H.stop_aligned H.bound] at returned
    obtain ⟨_, _, -, returned⟩ := Prog.bind_eq_ok.mp returned
    obtain ⟨_, _, -, returned⟩ := Prog.bind_eq_ok.mp returned
    cases returned
    exact Or.inr rfl

/-- A request within 15 bytes of `2 ^ 32` is not served in full. -/
theorem not_whole_of_large {getPagePma : KM π ℕ} (ctx : HeapContext s H)
    (large : 2 ^ 32 ≤ bytes + 15) (returned : alloc getPagePma kmMinAllocSize bytes s = .ok (v, s'))
    (whole : WholeRequest s s' bytes v) {M : Heap} (ctxM : HeapContext s' M) : False := by
  have inside := whole.inside
  have boundM := M.bound
  have alignedM := M.stop_aligned
  rw [ctxM.atEnd] at inside
  have low : 8 ≤ v := by
    rcases alloc_vma ctx returned with listed | rfl
    · obtain ⟨c, memC, -, rfl⟩ := Heap.mem_order.mp listed
      have range := H.range memC
      omega
    · have := H.first_le_stop
      omega
  omega

/-! ## A wrapped end -/

/-- `alloc`, "Initialize chunk descriptors", leaves the context alone. -/
theorem allocFinish_ctxt {vma n : ℕ} {u : Unit} (returned : allocFinish vma n s = .ok (u, s')) :
    s'.ctxt = s.ctxt := by
  unfold allocFinish allocGetNextDesc allocGetSize at returned
  obtain ⟨_, s₁, first, returned⟩ := Prog.bind_eq_ok.mp returned
  cases first
  obtain ⟨_, s₂, desc, returned⟩ := Prog.bind_eq_ok.mp returned
  obtain ⟨_, s₃, size, desc⟩ := Prog.bind_eq_ok.mp desc
  obtain ⟨_, s₄, word, size⟩ := Prog.bind_eq_ok.mp size
  cases word
  cases size
  cases desc
  obtain ⟨_, s₅, second, returned⟩ := Prog.bind_eq_ok.mp returned
  cases second
  cases returned
  rfl

/-- Where the new end wraps around, it moves down. -/
theorem extendHeap_wrapped {getPagePma : KM π ℕ} {n : ℕ} (ctx : HeapContext s H)
    (small : n + 8 < 2 ^ 32) (wraps : 2 ^ 32 ≤ H.stop + n + 8)
    (supplier : Quiet getPagePma ∨ H.stop ≤ 2 ^ 32 - pageSize)
    (returned : extendHeap getPagePma kmMinAllocSize n s = .ok (v, s')) :
    v = H.stop ∧ s'.ctxt.heapEnd < H.stop := by
  have word := H.bound
  have total : Word32.add H.stop (Word32.add n chunkDescSize) < H.stop := by
    unfold Word32.add chunkDescSize
    omega
  have bound : Word32.add (Word32.add H.stop n) chunkDescSize < H.stop := by
    unfold Word32.add chunkDescSize
    omega
  rw [extendHeap_kmMin _ _ ctx.atEnd H.stop_aligned word] at returned
  obtain ⟨_, s₁, pages, returned⟩ := Prog.bind_eq_ok.mp returned
  obtain ⟨_, s₂, finish, returned⟩ := Prog.bind_eq_ok.mp returned
  cases returned
  refine ⟨rfl, ?_⟩
  have same : s₁.ctxt.heapEnd = Word32.add H.stop (Word32.add n chunkDescSize) := by
    rcases supplier with quiet | below
    · rw [(allocMapPages_quiet quiet _ _ _ _ _ _ pages).ctxt]
    · -- the first page starts behind the wrapped bound, so the loop does nothing
      have start := align_page word
      have behind : H.stop ≤ align H.stop pageSize := by
        unfold pageSize at below
        split at start <;> omega
      rw [show pageFuel = 2 ^ 20 + 1 from rfl, allocMapPages_succ, if_neg (by omega)] at pages
      cases pages
      rfl
  rw [allocFinish_ctxt finish, same]
  exact total

/-! ## Served in full -/

omit [PageLayer π] in
/-- A block of the rounded size serves the request in full. -/
theorem WholeRequest.of_block {M : Heap} (request : bytes + 15 < 2 ^ 32)
    (ctxM : HeapContext s' M) (block : M.Live ⟨v, roundBytes bytes, false⟩)
    (newEnd : s.ctxt.heapEnd ≤ s'.ctxt.heapEnd) : WholeRequest s s' bytes v := by
  obtain ⟨pos, mult, covers, -⟩ := roundBytes_spec request
  have range := M.range block.1
  have bound := M.bound
  have size := ctxM.rep.ownTag _ block.1
  simp only [Chunk.tag_used] at range size
  refine ⟨?_, ?_, covers, Word32.add_eq (by unfold chunkDescSize; omega), newEnd⟩
  · rw [sizeField_allocGetDesc (by omega) (by omega), size]
    unfold kmMinAllocSize
    omega
  · rw [ctxM.atEnd]
    omega

/-- Where the free list cannot serve the request, only a new end that does not wrap
serves it. -/
theorem not_whole_of_wraps {getPagePma : KM π ℕ} {t : Sys π} (ctx : HeapContext t H)
    (request : bytes + 15 < 2 ^ 32) (wraps : ¬ H.stop + roundBytes bytes + chunkDescSize < 2 ^ 32)
    (supplier : Quiet getPagePma ∨ H.stop ≤ 2 ^ 32 - pageSize)
    (returned : extendHeap getPagePma kmMinAllocSize (roundBytes bytes) t = .ok (v, s'))
    (whole : WholeRequest s s' bytes v) : False := by
  obtain ⟨-, -, -, upper⟩ := roundBytes_spec request
  unfold chunkDescSize at wraps
  obtain ⟨rfl, moved⟩ := extendHeap_wrapped ctx (by omega) (by omega) supplier returned
  have inside := whole.inside
  omega

/-- The extended heap and its block. -/
theorem live_grow {P : Heap} {n : ℕ} (pos : 0 < n) (mult : n % 8 = 0)
    (fits : P.stop + n + 8 < 2 ^ 32) : (P.grow n pos mult fits).Live ⟨P.stop, n, false⟩ :=
  ⟨List.mem_append_right _ List.mem_cons_self, rfl⟩

/-- **A context with a quiet supplier.** -/
theorem whole_iff_of_quiet {getPagePma : KM π ℕ} (quiet : Quiet getPagePma)
    (ctx : HeapContext s H) (terminal : H.chunks ≠ [] → TerminalClear s H)
    (returned : alloc getPagePma kmMinAllocSize bytes s = .ok (v, s')) :
    (WholeRequest s s' bytes v ∧ ∃ M, HeapContext s' M ∧ TerminalClear s' M) ↔
      RequestFits H bytes := by
  by_cases request : bytes + 15 < 2 ^ 32
  · obtain ⟨pos, mult, -, -⟩ := roundBytes_spec request
    rcases alloc_cases ctx terminal kmMinAllocSize request with
      ⟨-, w, us, ws, M, t, -, -, found, ctxM, terminalM, -, split⟩ |
      ⟨-, unsuitable, t, ctxT, terminalT, touch, split⟩
    · rw [split] at returned
      cases returned
      have block := mem_liveOf.mp (found.live.mem_iff.mpr List.mem_cons_self)
      refine iff_of_true ⟨.of_block request ctxM block ?_, M, ctxM, terminalM⟩
        ⟨request, Or.inl (found.canServe mult)⟩
      rw [ctx.atEnd, ctxM.atEnd, found.stop]
    · have none := (not_canServe_iff mult).mpr (unsuitable rfl)
      rw [split] at returned
      by_cases fits : H.stop + roundBytes bytes + chunkDescSize < 2 ^ 32
      · obtain ⟨P, padded, rfl, room, ctxP, terminalP, -⟩ := extendHeap_returned quiet ctxT
          terminalT (align_kmMin H.stop_aligned H.bound) le_rfl H.stop_aligned pos mult fits
          returned
        obtain rfl := padded.eq_of_stop
        refine iff_of_true ⟨.of_block request ctxP (live_grow pos mult room) ?_, _, ctxP, terminalP⟩
          ⟨request, Or.inr fits⟩
        rw [ctx.atEnd, ctxP.atEnd]
        change P.stop ≤ P.stop + roundBytes bytes + 8
        omega
      · refine iff_of_false ?_ fun whole => ?_
        · rintro ⟨whole, -⟩
          exact not_whole_of_wraps ctxT request fits (Or.inl quiet) returned whole
        · exact whole.2.elim none fits
  · refine iff_of_false ?_ fun whole => request whole.1
    rintro ⟨whole, M, ctxM, -⟩
    exact not_whole_of_large ctx (by omega) returned whole ctxM

/-- **The kernel context**, whose heap ends at or before the start of the last page
and does so again. -/
theorem whole_iff_of_kernel {s s' : Sys PageTables} {nodes : List ℕ} {depth : ℕ}
    (kernel : KernelHeap s H nodes) (below : H.stop ≤ 2 ^ 32 - pageSize)
    (returned : kmalloc (depth + 1) bytes s = .ok (v, s')) :
    (WholeRequest s s' bytes v ∧
      ∃ M rest, KernelHeap s' M rest ∧ M.stop ≤ 2 ^ 32 - pageSize) ↔ RequestFits H bytes := by
  unfold kmalloc at returned
  by_cases request : bytes + 15 < 2 ^ 32
  · obtain ⟨pos, mult, -, -⟩ := roundBytes_spec request
    rcases alloc_cases kernel.ctx kernel.terminal kmMinAllocSize request with
      ⟨-, w, us, ws, M, t, -, -, found, ctxM, terminalM, touch, split⟩ |
      ⟨-, unsuitable, t, ctxT, terminalT, touch, split⟩
    · rw [split] at returned
      cases returned
      have block := mem_liveOf.mp (found.live.mem_iff.mpr List.mem_cons_self)
      have kernelM : KernelHeap s' M nodes :=
        ⟨ctxM, fun _ => terminalM, kernel.list.touch touch kernel.live, fun m member =>
          mem_liveOf.mp (found.live.mem_iff.mpr (List.mem_cons_of_mem _
            (mem_liveOf.mpr (kernel.live m member))))⟩
      refine iff_of_true ⟨.of_block request ctxM block ?_, M, nodes, kernelM, ?_⟩
        ⟨request, Or.inl (found.canServe mult)⟩
      · rw [kernel.ctx.atEnd, ctxM.atEnd, found.stop]
      · rw [found.stop]
        exact below
    · have none := (not_canServe_iff mult).mpr (unsuitable rfl)
      rw [split] at returned
      by_cases fits : H.stop + roundBytes bytes + chunkDescSize < 2 ^ 32
      · have kernelT : KernelHeap t H nodes :=
          ⟨ctxT, terminalT, kernel.list.touch touch kernel.live, kernel.live⟩
        obtain ⟨M, popped, rest, -, kernelM, rfl, extension⟩ :=
          (pageNew_supplies _ depth).extendHeap_returned kernelT
            (align_kmMin H.stop_aligned H.bound) le_rfl H.stop_aligned pos mult fits returned
        refine iff_of_true ⟨.of_block request kernelM.ctx extension.block ?_, M, rest, kernelM, ?_⟩
          ⟨request, Or.inr fits⟩
        · rw [kernel.ctx.atEnd, kernelM.ctx.atEnd, extension.stop]
          omega
        · rw [extension.stop]
          by_contra high
          exact extendHeap_never_returns ctxT terminalT fits (Nat.not_le.mp high) returned
      · refine iff_of_false ?_ fun whole => ?_
        · rintro ⟨whole, -⟩
          exact not_whole_of_wraps ctxT request fits (Or.inr below) returned whole
        · exact whole.2.elim none fits
  · refine iff_of_false ?_ fun whole => request whole.1
    rintro ⟨whole, M, rest, kernelM, -⟩
    exact not_whole_of_large kernel.ctx (by omega) returned whole kernelM.ctx

/-- **A request is served in full if and only if its sums do not wrap around.**  The first part is
about the allocator on its own, over any page layer; the second about `kmalloc` on the kernel
heap.  Both sums of `RequestFits` are made without a check in the code: the rounding of the
request, and the end of the heap with the request and a descriptor. -/
theorem whole_request_iff (bytes v : ℕ) :
    (∀ (π : Type) [PageLayer π] (getPagePma : KM π ℕ) (s s' : Sys π) (H : Heap),
      Quiet getPagePma → HeapContext s H → (H.chunks ≠ [] → TerminalClear s H) →
      alloc getPagePma kmMinAllocSize bytes s = .ok (v, s') →
      ((WholeRequest s s' bytes v ∧ ∃ M, HeapContext s' M ∧ TerminalClear s' M) ↔
        RequestFits H bytes)) ∧
    ∀ (depth : ℕ) (s s' : Sys PageTables) (H : Heap) (nodes : List ℕ),
      KernelHeap s H nodes → H.stop ≤ 2 ^ 32 - pageSize →
      kmalloc (depth + 1) bytes s = .ok (v, s') →
      ((WholeRequest s s' bytes v ∧
        ∃ M rest, KernelHeap s' M rest ∧ M.stop ≤ 2 ^ 32 - pageSize) ↔ RequestFits H bytes) :=
  ⟨fun _ _ _ _ _ _ quiet ctx terminal returned =>
      whole_iff_of_quiet quiet ctx terminal returned,
    fun _ _ _ _ _ kernel below returned => whole_iff_of_kernel kernel below returned⟩

/-- A request of 8 bytes from a chunk of 32, and one of 8 bytes on the kernel heap
with one node. -/
theorem whole_request_of_hole :
    (∃ v s', alloc (pure 0) kmMinAllocSize 8 holed = .ok (v, s') ∧ WholeRequest holed s' 8 v) ∧
    ∃ v s', kmalloc 1 8 oneNodeKernel = .ok (v, s') ∧ WholeRequest oneNodeKernel s' 8 v := by
  obtain ⟨v, s', returned, -⟩ := Prog.exists_of_check (s := holed)
    (m := alloc (pure 0) kmMinAllocSize 8) (fun _ _ => true) (by decide +kernel)
  obtain ⟨w, t', returned', -⟩ := Prog.exists_of_check (s := oneNodeKernel)
    (m := kmalloc 1 8) (fun _ _ => true) (by decide +kernel)
  refine ⟨⟨v, s', returned, ?_⟩, w, t', returned', ?_⟩
  · have fits : RequestFits holedHeap 8 := ⟨by decide, Or.inr (by decide +kernel)⟩
    exact (((whole_request_iff 8 v).1 AllMapped (pure 0) holed s' holedHeap (quiet_pure 0)
      holed_context (fun _ => rfl) returned).mpr fits).1
  · have fits : RequestFits oneNodeHeap 8 := ⟨by decide, Or.inr (by decide +kernel)⟩
    exact (((whole_request_iff 8 w).2 0 oneNodeKernel t' oneNodeHeap [0x1008]
      oneNodeKernel_wellFormed (by decide) returned').mpr fits).1

/-- `alloc(0xFFFFFFF0)` on a heap that ends at `0x2040` returns a block there, and
the heap ends below it. -/
theorem huge_request_moves_end_down :
    ∃ s', alloc (pure 0) kmMinAllocSize 0xFFFFFFF0 holed = .ok (0x2040, s') ∧
      ¬ WholeRequest holed s' 0xFFFFFFF0 0x2040 := by
  obtain ⟨v, s', returned, check⟩ := Prog.exists_of_check (s := holed)
    (m := alloc (pure 0) kmMinAllocSize 0xFFFFFFF0)
    (fun v s' => decide (v = 0x2040 ∧ s'.ctxt.heapEnd = 0x2038)) (by decide +kernel)
  obtain ⟨rfl, moved⟩ := of_decide_eq_true check
  refine ⟨s', returned, fun whole => ?_⟩
  have inside := whole.inside
  omega

end TrashOS
