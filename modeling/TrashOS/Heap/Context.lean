import TrashOS.Heap.Extend
import TrashOS.Heap.Search

/-!
# `alloc` and `free` on a heap context

The two operations as whole calls, on a context whose page layer does not call
back into it (`Quiet`).  Each theorem takes a call that returned and says which
heap the context holds afterwards, how the blocks in use changed, and that no
block in use was written.

## Main definitions

* `HeapContext` — the context `ctxt` represents a heap: its start, its end and its free
  list.  `OpenHeap` is the same in the middle of an extension, when the end is ahead.
* `AllocPath`, `FreePath` — what a call does in between: the words it touches, and the
  page loop it runs, if it runs one.
* `NoWrap` — the sums of a request stay below `2 ^ 32`, which the code does not check.

The extension is split at the page loop (`extendHeap_opens`, `OpenHeap.finish`), since a
page supplier may free blocks of the same heap there.
-/

namespace TrashOS

variable {π : Type} {s s' : Sys π} {H : Heap}

/-! ## Blocks in use -/

/-- The chunks in use, in address order. -/
def liveOf (chunks : List Chunk) : List Chunk := chunks.filter fun c => !c.free

@[simp] theorem liveOf_nil : liveOf [] = [] := rfl

@[simp] theorem liveOf_append (xs ys : List Chunk) :
    liveOf (xs ++ ys) = liveOf xs ++ liveOf ys := by
  simp [liveOf]

theorem liveOf_cons_used {c : Chunk} (used : c.free = false) (cs : List Chunk) :
    liveOf (c :: cs) = c :: liveOf cs := by
  simp [liveOf, used]

theorem liveOf_cons_free {c : Chunk} (isFree : c.free = true) (cs : List Chunk) :
    liveOf (c :: cs) = liveOf cs := by
  simp [liveOf, isFree]

@[simp] theorem liveOf_reverse (cs : List Chunk) : liveOf cs.reverse = (liveOf cs).reverse := by
  simp [liveOf, List.filter_reverse]

theorem mem_liveOf {c : Chunk} : c ∈ liveOf H.chunks ↔ H.Live c := by
  simp [liveOf, Heap.Live]

theorem liveOf_absorbNext (c : Chunk) (post : List Chunk) :
    liveOf (absorbNext c post).2 = liveOf post := by
  cases post with
  | nil => rfl
  | cons d post =>
      cases isFree : d.free with
      | false => rw [absorbNext_of_used isFree]
      | true => rw [absorbNext_of_free isFree, liveOf_cons_free isFree]

theorem liveOf_absorbPrev (c : Chunk) (before : List Chunk) :
    liveOf (absorbPrev c before).2 = liveOf before := by
  cases before with
  | nil => rfl
  | cons d before =>
      cases isFree : d.free with
      | false => rw [absorbPrev_of_used isFree]
      | true => rw [absorbPrev_of_free isFree, liveOf_cons_free isFree]

/-- The search adds its block to the blocks in use. -/
theorem Found.live {M : Heap} {n v : ℕ} (found : Found H n v M) :
    (liveOf M.chunks).Perm (⟨v, n, false⟩ :: liveOf H.chunks) := by
  cases found with
  | take split isFree fit =>
      subst fit
      rw [split, liveOf_append, liveOf_cons_free isFree]
      change (liveOf (_ ++ _ :: _)).Perm _
      rw [liveOf_append, liveOf_cons_used rfl]
      exact List.perm_middle
  | cut split isFree pos mult room =>
      rw [split, liveOf_append, liveOf_cons_free isFree]
      change (liveOf (_ ++ _ :: _ :: _)).Perm _
      rw [liveOf_append, liveOf_cons_used rfl, liveOf_cons_free rfl]
      exact List.perm_middle

/-- The search leaves the last chunk in use. -/
theorem Found.closed {M : Heap} {n v : ℕ} (found : Found H n v M) (closed : H.Closed) :
    M.Closed := by
  cases found with
  | @take pre post c split isFree fit =>
      cases post with
      | nil =>
          have := closed c (by simp [split])
          simp [isFree] at this
      | cons d post =>
          intro e member
          refine closed e ?_
          change e ∈ (pre ++ _ :: d :: post).getLast? at member
          rw [split]
          simpa using member
  | @cut pre post c split isFree pos mult room =>
      cases post with
      | nil =>
          have := closed c (by simp [split])
          simp [isFree] at this
      | cons d post =>
          intro e member
          refine closed e ?_
          change e ∈ (pre ++ _ :: _ :: d :: post).getLast? at member
          rw [split]
          simpa using member

theorem Padded.live {target : ℕ} {M : Heap} (padded : Padded H target M) :
    liveOf M.chunks = liveOf H.chunks := by
  cases padded with
  | aligned eq => rfl
  | gap closed n pos mult fits eq =>
      change liveOf (H.chunks ++ [_]) = _
      rw [liveOf_append, liveOf_cons_free rfl]
      simp [liveOf]

/-! ## Contexts -/

/-- **The heap context of `s` holds the heap `H`**: the chunks tile the region
up to `ctxt->end`, and the last one is in use. -/
structure HeapContext (s : Sys π) (H : Heap) : Prop where
  rep : Represents s H
  start : H.first = align s.ctxt.start kmMinAllocSize
  atEnd : s.ctxt.heapEnd = H.stop
  closed : H.Closed

/-- The words of chunks of an open or closed heap belong to the context. -/
theorem ownWord_of_holds {c : Chunk} {a : ℕ} (start : H.first = align s.ctxt.start kmMinAllocSize)
    (le : H.stop ≤ s.ctxt.heapEnd) (memC : c ∈ H.chunks) (inside : c.Holds a) : OwnWord s a := by
  have := H.range memC
  obtain ⟨lower, upper⟩ := inside
  unfold Chunk.stop at upper
  exact ⟨by omega, by omega⟩

/-- A heap is still represented after a computation that leaves its context
alone. -/
theorem Represents.undisturbed (rep : Represents s H)
    (start : H.first = align s.ctxt.start kmMinAllocSize) (le : H.stop ≤ s.ctxt.heapEnd)
    (calm : Undisturbed s s') : Represents s' H := by
  have low := H.first_le_stop
  have same : ∀ a, H.first ≤ a → a < H.stop → s'.mem a = s.mem a := fun a lower upper =>
    calm.mem a ⟨by omega, by omega⟩
  refine rep.congr (same _ le_rfl (by omega)) (fun c memC => ?_) (fun c memC _ => ?_)
    (by rw [calm.ctxt])
  · have rangeC := H.range memC
    exact ⟨same _ (by omega) (by omega), same _ (by omega) (by omega)⟩
  · have rangeC := H.range memC
    exact ⟨same _ (by omega) (by omega), same _ (by omega) (by omega)⟩

/-- Moving `ctxt->end` does not concern the chunks. -/
theorem Represents.setEnd (rep : Represents s H) (v : ℕ) :
    Represents { s with ctxt := { s.ctxt with heapEnd := v } } H :=
  rep.congr rfl (fun _ _ => ⟨rfl, rfl⟩) (fun _ _ _ => ⟨rfl, rfl⟩) rfl

/-! ## The loops over pages -/

theorem record_pageFree_quiet (vma : ℕ) : Quiet (record (π := π) (.pageFree vma)) := by
  intro s a s' returned
  cases returned
  exact ⟨fun _ _ => rfl, rfl, [.pageFree vma], rfl, by simp⟩

variable [PageLayer π]

theorem pageSetEntry_quiet (vma entry : ℕ) : Quiet (pageSetEntry (π := π) vma entry) := by
  intro s a s' returned
  unfold pageSetEntry at returned
  split at returned
  · cases returned
    exact ⟨fun _ _ => rfl, rfl, [.setEntry vma entry], rfl, by simp⟩
  · cases returned

theorem allocMapPages_quiet {getPagePma : KM π ℕ} (quiet : Quiet getPagePma) (bound : ℕ) :
    ∀ fuel page, Quiet (allocMapPages getPagePma bound fuel page)
  | 0, _ => by
      intro s a s' returned
      cases returned
  | fuel + 1, page => by
      intro s a s' returned
      unfold allocMapPages at returned
      split at returned
      · obtain ⟨pma, s₁, first, returned⟩ := Prog.bind_eq_ok.mp returned
        obtain ⟨u, s₂, second, returned⟩ := Prog.bind_eq_ok.mp returned
        exact ((quiet _ _ _ first).trans (pageSetEntry_quiet _ _ _ _ _ second)).trans
          (allocMapPages_quiet quiet bound fuel _ _ _ _ returned)
      · cases returned
        exact Undisturbed.refl s

omit [PageLayer π] in
theorem freePages_quiet {pageFree : ℕ → KM π Unit} (quiet : ∀ v, Quiet (pageFree v)) (vma : ℕ) :
    ∀ fuel page, Quiet (freePages pageFree vma fuel page)
  | 0, _ => by
      intro s a s' returned
      cases returned
  | fuel + 1, page => by
      intro s a s' returned
      unfold freePages at returned
      split at returned
      · obtain ⟨u, s₁, first, returned⟩ := Prog.bind_eq_ok.mp returned
        obtain ⟨u', s₂, second, returned⟩ := Prog.bind_eq_ok.mp returned
        exact ((record_pageFree_quiet _ _ _ _ first).trans (quiet _ _ _ _ second)).trans
          (freePages_quiet quiet vma fuel _ _ _ _ returned)
      · cases returned
        exact Undisturbed.refl s

/-! ## The way through a call

A call accesses its heap, hands over to the page layer, and accesses the heap
again.  The paths say which words are accessed in which part. -/

/-- The words from `lo` up to `hi`. -/
def Between (lo hi a : ℕ) : Prop := lo ≤ a ∧ a < hi

theorem Footprint.between {lo hi : ℕ} {keep : Chunk → Prop} {a : ℕ}
    (inside : Footprint lo hi keep a) : Between lo hi a := ⟨inside.1, inside.2.1⟩

/-- The extension of a heap from `target` by a chunk of `n` bytes: padding, page loop,
descriptors. -/
inductive ExtendPath (getPagePma : KM π ℕ) (first target n : ℕ) : Sys π → Sys π → Prop
  | parts {s s₁ s₂ s' : Sys π} (pad : Touch (Between first target) s s₁)
      (loop : allocMapPages getPagePma (target + n + 8) pageFuel (align target pageSize)
        { s₁ with ctxt := { s₁.ctxt with heapEnd := target + n + 8 } } = .ok ((), s₂))
      (finish : Touch (Between first (target + n + 8)) s₂ s')
      (ending : s'.ctxt.heapEnd = target + n + 8) :
      ExtendPath getPagePma first target n s s'

/-- A call of `alloc` on a heap between `first` and `stop`. -/
inductive AllocPath (getPagePma : KM π ℕ) (first stop target n : ℕ) : Sys π → Sys π → Prop
  | found {s s' : Sys π} (search : Touch (Between first stop) s s')
      (ending : s'.ctxt.heapEnd = stop) :
      AllocPath getPagePma first stop target n s s'
  | extended {s t s' : Sys π} (search : Touch (Between first stop) s t)
      (fits : target + n + 8 < 2 ^ 32) (extend : ExtendPath getPagePma first target n t s') :
      AllocPath getPagePma first stop target n s s'

/-- A call of `free` on a heap between `first` and `stop`. -/
inductive FreePath (pageFree : ℕ → KM π Unit) (first stop : ℕ) : Sys π → Sys π → Prop
  | inside {s s' : Sys π} (touch : Touch (Between first stop) s s')
      (ending : s'.ctxt.heapEnd = stop) :
      FreePath pageFree first stop s s'
  | atEnd {s t t' : Sys π} {vma : ℕ} (touch : Touch (Between first stop) s t)
      (ending : t.ctxt.heapEnd = stop) (low : first + 8 ≤ vma) (high : vma ≤ stop)
      (loop : freePages pageFree vma pageFuel (stop &&& Word32.not 0xfff) t = .ok ((), t')) :
      FreePath pageFree first stop s { t' with ctxt := { t'.ctxt with heapEnd := vma } }

section Paths

variable {getPagePma : KM π ℕ} {pageFree : ℕ → KM π Unit} {first stop target n : ℕ}

theorem ExtendPath.start (quiet : Quiet getPagePma)
    (path : ExtendPath getPagePma first target n s s') : s'.ctxt.start = s.ctxt.start := by
  obtain ⟨pad, loop, finish, -⟩ := path
  rw [finish.start, (allocMapPages_quiet quiet _ _ _ _ _ _ loop).ctxt]
  exact pad.start

/-- `alloc` leaves the start of its context alone. -/
theorem AllocPath.start (quiet : Quiet getPagePma)
    (path : AllocPath getPagePma first stop target n s s') : s'.ctxt.start = s.ctxt.start := by
  cases path with
  | found search ending => exact search.start
  | extended search fits extend => exact (extend.start quiet).trans search.start

/-- So does `free`. -/
theorem FreePath.start (quiet : ∀ v, Quiet (pageFree v))
    (path : FreePath pageFree first stop s s') : s'.ctxt.start = s.ctxt.start := by
  cases path with
  | inside touch ending => exact touch.start
  | @atEnd t t' vma touch ending low high loop =>
      change t'.ctxt.start = _
      rw [(freePages_quiet quiet _ _ _ _ _ _ loop).ctxt, touch.start]

end Paths

/-! ## `alloc` -/

/-- The words no block in use holds. -/
def OffLive (H : Heap) (a : ℕ) : Prop := ∀ c, H.Live c → ¬ c.Holds a

/-- **An open heap**: `ctxt->end` already lies behind the region.  If the last
chunk is in use, the descriptor behind it does not carry the `FREE` flag; if it
is free, nobody reads that descriptor. -/
structure OpenHeap (s : Sys π) (P : Heap) : Prop where
  rep : Represents s P
  start : P.first = align s.ctxt.start kmMinAllocSize
  ahead : P.stop < s.ctxt.heapEnd
  terminal : P.Closed → P.chunks ≠ [] → TerminalClear s P

/-- **The extension of the heap up to the page loop** stops where the padding has no
room for a chunk, and opens the heap otherwise. -/
theorem extendHeap_opens (ctx : HeapContext s H) (terminal : H.chunks ≠ [] → TerminalClear s H)
    {alignment target n : ℕ} (aligned : align H.stop alignment = target) (le : H.stop ≤ target)
    (multT : target % 8 = 0) (fits : target + n + 8 < 2 ^ 32) :
    (target = H.stop + 8 ∧ ∀ getPagePma : KM π ℕ, extendHeap getPagePma alignment n s =
      .error (.die "alloc: fatal: free block below min size: %u\n" 8)) ∨
    ∃ P s₁, Padded H target P ∧ Touch (Footprint H.first target H.Live) s s₁ ∧
      target ≠ H.stop + 8 ∧ (target = H.stop → s₁ = s) ∧
      OpenHeap { s₁ with ctxt := { s₁.ctxt with heapEnd := target + n + 8 } } P ∧
      ∀ getPagePma : KM π ℕ, extendHeap getPagePma alignment n s = (do
          allocMapPages getPagePma (target + n + 8) pageFuel (align target pageSize)
          allocFinish target n
          pure target) { s₁ with ctxt := { s₁.ctxt with heapEnd := target + n + 8 } } := by
  have live : KeepsLive H H.Live := fun _ kept => kept
  rcases allocPad_cases ctx.rep ctx.closed ctx.atEnd live aligned le multT (by omega) with
    ⟨eight, dies⟩ | ⟨P, s₁, padded, pad, rep₁, end₁, notEight, same⟩
  · exact Or.inl ⟨eight, fun getPagePma => Prog.bind_of_error dies⟩
  refine Or.inr ⟨P, s₁, padded, pad.2, notEight, same, ⟨rep₁.setEnd _, ?_, ?_, ?_⟩,
    fun getPagePma => ?_⟩
  · change P.first = align s₁.ctxt.start kmMinAllocSize
    rw [padded.first, ctx.start, pad.2.start]
  · rw [padded.stop]
    simp only
    omega
  · -- a padding chunk leaves the region with a free chunk at its end
    intro closed nonempty
    cases padded with
    | aligned eq =>
        rw [same eq]
        exact terminal nonempty
    | gap closedH m pos mult fits eq =>
        have isFree := closed ⟨H.stop, m, true⟩ (by simp [Heap.pad])
        cases isFree
  · have total : Word32.add target (Word32.add n chunkDescSize) = target + n + 8 := by
      rw [chunkDescSize, Word32.add_eq (a := n) (by omega), Word32.add_eq (by omega)]
      omega
    have bound : Word32.add (Word32.add target n) chunkDescSize = target + n + 8 := by
      rw [chunkDescSize, Word32.add_eq (a := target) (by omega), Word32.add_eq (by omega)]
    unfold extendHeap
    rw [Prog.bind_of_ok pad.1,
      Prog.bind_of_ok (m := getEnd) (a := target) (t := s₁) (by rw [← end₁]; rfl), total, bound,
      Prog.bind_of_ok rfl]

/-- **The new chunk closes the heap.** -/
theorem OpenHeap.finish {P : Heap} {n : ℕ} (openP : OpenHeap s P) (pos : 0 < n)
    (mult : n % 8 = 0) (fits : P.stop + n + 8 < 2 ^ 32)
    (ending : s.ctxt.heapEnd = P.stop + n + 8) {keep : Chunk → Prop} (live : KeepsLive P keep) :
    ∃ s', Runs (Footprint P.first (P.stop + n + 8) keep) s (allocFinish P.stop n) () s' ∧
      HeapContext s' (P.grow n pos mult fits) ∧ TerminalClear s' (P.grow n pos mult fits) := by
  obtain ⟨s', finish, rep, terminal, ctxt⟩ := allocFinish_runs openP.rep pos mult fits live
  refine ⟨s', finish, ⟨rep, ?_, ?_, fun c last => ?_⟩, terminal⟩
  · rw [ctxt]
    exact openP.start
  · rw [ctxt, ending]
    rfl
  · change c ∈ (P.chunks ++ [_]).getLast? at last
    simp only [List.getLast?_append, List.getLast?_singleton, Option.some_or,
      Option.mem_some_iff] at last
    rw [← last]

/-- The blocks in use of the heap with its new chunk. -/
theorem liveOf_grow {P : Heap} {n : ℕ} (pos : 0 < n) (mult : n % 8 = 0)
    (fits : P.stop + n + 8 < 2 ^ 32) :
    (liveOf (P.grow n pos mult fits).chunks).Perm (⟨P.stop, n, false⟩ :: liveOf P.chunks) := by
  change (liveOf (P.chunks ++ [_])).Perm _
  rw [liveOf_append, liveOf_cons_used rfl]
  exact List.perm_append_singleton _ _

/-- The blocks in use stay in use when the end is padded. -/
theorem Padded.keepsLive {target : ℕ} {P : Heap} (padded : Padded H target P) :
    KeepsLive P H.Live := fun c kept => by
  rw [← mem_liveOf, padded.live, mem_liveOf]
  exact kept

/-- The extension of the heap, when it returns. -/
theorem extendHeap_returned {getPagePma : KM π ℕ} (quiet : Quiet getPagePma)
    (ctx : HeapContext s H) (terminal : H.chunks ≠ [] → TerminalClear s H)
    {alignment target n v : ℕ} (aligned : align H.stop alignment = target)
    (le : H.stop ≤ target) (multT : target % 8 = 0) (pos : 0 < n) (mult : n % 8 = 0)
    (fits : target + n + 8 < 2 ^ 32)
    (returned : extendHeap getPagePma alignment n s = .ok (v, s')) :
    ∃ P, Padded H target P ∧ v = P.stop ∧ ∃ room : P.stop + n + 8 < 2 ^ 32,
      HeapContext s' (P.grow n pos mult room) ∧ TerminalClear s' (P.grow n pos mult room) ∧
      Stores (OffLive H) s s' ∧ ExtendPath getPagePma H.first target n s s' := by
  rcases extendHeap_opens ctx terminal aligned le multT fits with
    ⟨-, dies⟩ | ⟨P, s₁, padded, touch₁, -, -, openP, rest⟩
  · rw [dies] at returned
    cases returned
  rw [rest] at returned
  obtain ⟨u', s₃, pages, returned⟩ := Prog.bind_eq_ok.mp returned
  have calm := allocMapPages_quiet quiet _ _ _ _ _ _ pages
  have below : P.stop ≤ target + n + 8 := openP.ahead.le
  have open₃ : OpenHeap s₃ P := by
    refine ⟨openP.rep.undisturbed openP.start below calm, ?_, ?_, fun closed nonempty => ?_⟩
    · rw [calm.ctxt]
      exact openP.start
    · rw [calm.ctxt]
      exact openP.ahead
    · have low := P.first_le_stop
      rw [TerminalClear, calm.mem _ ⟨by rw [← openP.start]; omega, by simp only; omega⟩]
      exact openP.terminal closed nonempty
  have stop := padded.stop
  subst stop
  obtain ⟨s₄, finish, ctx₄, terminal₄⟩ := open₃.finish pos mult fits (by rw [calm.ctxt])
    padded.keepsLive
  rw [Prog.bind_of_ok finish.1] at returned
  cases returned
  refine ⟨P, padded, rfl, fits, ctx₄, terminal₄, ?_,
    .parts (touch₁.mono fun _ => Footprint.between) pages
      (finish.2.mono fun _ inside => padded.first ▸ inside.between) ctx₄.atEnd⟩
  · have mapping : Stores (OffLive H)
        { s₁ with ctxt := { s₁.ctxt with heapEnd := P.stop + n + 8 } } s₃ := by
      refine calm.stores.mono fun a out c liveC holds => out ?_
      exact ownWord_of_holds openP.start below (padded.keepsLive c liveC).1 holds
    exact (touch₁.stores.mono fun a inside => inside.2.2).trans
      (mapping.trans (finish.2.stores.mono fun a inside => inside.2.2))

theorem roundBytes_spec {bytes : ℕ} (small : bytes + 15 < 2 ^ 32) :
    0 < roundBytes bytes ∧ roundBytes bytes % 8 = 0 ∧ bytes ≤ roundBytes bytes ∧
      roundBytes bytes ≤ max 8 (bytes + 7) := by
  unfold roundBytes kmMinAllocSize
  split
  · have exact : align bytes (2 ^ 3) = Word32.roundUp 3 bytes := by
      refine align_eq_roundUp (by decide) ?_ (by omega)
      unfold Word32.roundUp
      omega
    have pow : (2 : ℕ) ^ 3 = 8 := rfl
    rw [pow] at exact
    rw [exact]
    unfold Word32.roundUp
    omega
  · omega

/-- The end of the heap after alignment, computed without wrap-around. -/
def alignedEnd (heapEnd alignment : ℕ) : ℕ := (heapEnd + (alignment - 1)) / alignment * alignment

/-- The two alignments the kernel uses. -/
def KernelAlignment (alignment : ℕ) : Prop := alignment = kmMinAllocSize ∨ alignment = pageSize

theorem KernelAlignment.alignedEnd_spec {alignment heapEnd : ℕ}
    (kernel : KernelAlignment alignment) (multEnd : heapEnd % 8 = 0)
    (fits : alignedEnd heapEnd alignment < 2 ^ 32) :
    align heapEnd alignment = alignedEnd heapEnd alignment ∧
      heapEnd ≤ alignedEnd heapEnd alignment ∧ alignedEnd heapEnd alignment % 8 = 0 := by
  rcases kernel with rfl | rfl
  · have exact : align heapEnd (2 ^ 3) = Word32.roundUp 3 heapEnd :=
      align_eq_roundUp (by decide) fits (by unfold alignedEnd kmMinAllocSize at fits; omega)
    refine ⟨exact, ?_⟩
    unfold alignedEnd kmMinAllocSize
    omega
  · have exact : align heapEnd (2 ^ 12) = Word32.roundUp 12 heapEnd :=
      align_eq_roundUp (by decide) fits (by unfold alignedEnd pageSize at fits; omega)
    refine ⟨exact, ?_⟩
    unfold alignedEnd pageSize
    omega

/-- The call does not find a chunk in the free list and extends the heap. -/
def Extends (s : Sys π) (alignment bytes : ℕ) : Prop :=
  alignment = kmMinAllocSize →
    ∃ t, allocSearch (roundBytes bytes) searchFuel s.ctxt.freeList s = .ok (none, t)

/-- **No address of the call wraps around**: neither the size of the request
with its descriptor nor, where the heap is extended, the new end. -/
structure NoWrap (s : Sys π) (alignment bytes : ℕ) : Prop where
  request : bytes + 15 < 2 ^ 32
  extent : Extends s alignment bytes →
    alignedEnd s.ctxt.heapEnd alignment + roundBytes bytes + 8 < 2 ^ 32

/-- **A call of `alloc`** finds the first suitable chunk of the free list, without
its page supplier, or extends the heap. -/
theorem alloc_cases (ctx : HeapContext s H) (terminal : H.chunks ≠ [] → TerminalClear s H)
    (alignment : ℕ) {bytes : ℕ} (request : bytes + 15 < 2 ^ 32) :
    (¬ Extends s alignment bytes ∧ ∃ v us ws M t, H.order = us ++ v :: ws ∧
      Unsuitable H (roundBytes bytes) us ∧ Found H (roundBytes bytes) v M ∧ HeapContext t M ∧
      TerminalClear t M ∧ Touch (Footprint H.first H.stop H.Live) s t ∧
      ∀ getPagePma : KM π ℕ, alloc getPagePma alignment bytes s = .ok (v, t)) ∨
    (Extends s alignment bytes ∧
      (alignment = kmMinAllocSize → Unsuitable H (roundBytes bytes) H.order) ∧
      ∃ t, HeapContext t H ∧ (H.chunks ≠ [] → TerminalClear t H) ∧
      Touch (Footprint H.first H.stop H.Live) s t ∧
      ∀ getPagePma : KM π ℕ,
        alloc getPagePma alignment bytes s =
          extendHeap getPagePma alignment (roundBytes bytes) t) := by
  have live : KeepsLive H H.Live := fun _ kept => kept
  obtain ⟨pos, mult, -, upper⟩ := roundBytes_spec request
  by_cases atom : alignment = kmMinAllocSize
  · obtain ⟨r, M, t, run, rep, ending, word, outcome⟩ :=
      allocSearch_runs [] (n := roundBytes bytes) pos mult (by omega) live rfl ctx.rep
        (show H.order.length < searchFuel by
          have := H.length_order_lt
          unfold searchFuel
          omega)
        ctx.rep.links.singly
    have whole : ∀ getPagePma : KM π ℕ, alloc getPagePma alignment bytes s = _ :=
      fun getPagePma => by
        unfold alloc
        rw [if_neg (by simpa using atom),
          Prog.bind_of_ok (m := getFreeList) (a := s.ctxt.freeList) (t := s) rfl,
          Prog.bind_of_ok run.1]
    have start := run.2.start
    rcases outcome with ⟨rfl, rfl, unsuitable⟩ | ⟨v, us, ws, rfl, found, parts, before⟩
    · refine Or.inr ⟨fun _ => ⟨t, run.1⟩, fun _ => unsuitable, t,
        ⟨rep, by rw [start]; exact ctx.start, by rw [ending, ctx.atEnd], ctx.closed⟩,
        fun nonempty => ?_, run.2, whole⟩
      rw [TerminalClear, word]
      exact terminal nonempty
    · refine Or.inl ⟨fun extends_ => ?_, v, us, ws, M, t, parts, before, found,
        ⟨rep, ?_, ?_, found.closed ctx.closed⟩, ?_, run.2, whole⟩
      · obtain ⟨t', none⟩ := extends_ atom
        rw [run.1] at none
        cases none
      · rw [found.first, start]
        exact ctx.start
      · rw [ending, found.stop, ctx.atEnd]
      · rw [TerminalClear, found.stop, word]
        refine terminal fun none => ?_
        cases found with
        | take split => simp [split] at none
        | cut split => simp [split] at none
  · refine Or.inr ⟨fun same => absurd same atom, fun same => absurd same atom, s, ctx, terminal,
      Touch.refl _ s, fun getPagePma => ?_⟩
    unfold alloc
    rw [if_pos atom]

/-- **`alloc` on a heap context**, when it returns: the block is new, and no
block in use was written. -/
theorem alloc_returned {getPagePma : KM π ℕ} (quiet : Quiet getPagePma) (ctx : HeapContext s H)
    (terminal : H.chunks ≠ [] → TerminalClear s H) {alignment bytes v : ℕ}
    (kernel : KernelAlignment alignment) (noWrap : NoWrap s alignment bytes)
    (returned : alloc getPagePma alignment bytes s = .ok (v, s')) :
    ∃ M, HeapContext s' M ∧ TerminalClear s' M ∧
      (liveOf M.chunks).Perm (⟨v, roundBytes bytes, false⟩ :: liveOf H.chunks) ∧
      Stores (OffLive H) s s' ∧
      AllocPath getPagePma H.first H.stop (alignedEnd H.stop alignment) (roundBytes bytes)
        s s' := by
  obtain ⟨pos, mult, -, -⟩ := roundBytes_spec noWrap.request
  rcases alloc_cases ctx terminal alignment noWrap.request with
    ⟨-, w, us, ws, M, t, -, -, found, ctxM, terminalM, touch, split⟩ |
    ⟨extends_, -, t, ctxT, terminalT, touch, split⟩
  · rw [split] at returned
    cases returned
    exact ⟨M, ctxM, terminalM, found.live, touch.stores.mono fun a inside => inside.2.2,
      .found (touch.mono fun _ => Footprint.between) (ctxM.atEnd.trans found.stop)⟩
  · have fits := noWrap.extent extends_
    rw [ctx.atEnd] at fits
    obtain ⟨aligned, le, multT⟩ := kernel.alignedEnd_spec H.stop_aligned (by omega)
    rw [split] at returned
    obtain ⟨P, padded, rfl, room, ctxM, terminalM, stores, path⟩ :=
      extendHeap_returned quiet ctxT terminalT aligned le multT pos mult fits returned
    refine ⟨_, ctxM, terminalM, padded.live ▸ liveOf_grow pos mult room,
      (touch.stores.mono fun a inside => inside.2.2).trans stores,
      .extended (touch.mono fun _ => Footprint.between) fits path⟩

/-! ## `free` -/

/-- The chunks after `free` of the chunk `c`: the last one leaves the heap with its
free neighbour, any other becomes free with them. -/
def afterFree (before : List Chunk) (c : Chunk) (post : List Chunk) : List Chunk :=
  match (absorbNext c post).2 with
  | [] => (absorbPrev (absorbNext c post).1 before).2.reverse
  | d :: behind =>
      (absorbPrev (absorbNext c post).1 before).2.reverse ++ freedChunk before c post :: d :: behind

/-- The blocks in use around a chunk, before and after the merges. -/
theorem liveOf_around {before post : List Chunk} {c : Chunk}
    (split : H.chunks = before.reverse ++ c :: post) (used : c.free = false) :
    (c :: (liveOf (absorbPrev (absorbNext c post).1 before).2.reverse ++
      liveOf (absorbNext c post).2)).Perm (liveOf H.chunks) := by
  rw [split, liveOf_append, liveOf_cons_used used, liveOf_reverse, liveOf_reverse,
    liveOf_absorbPrev, liveOf_absorbNext]
  exact List.perm_middle.symm

/-- `free` on a heap context, seen from the chunk that is freed. -/
theorem free_split {pageFree : ℕ → KM π Unit} (quiet : ∀ v, Quiet (pageFree v))
    (ctx : HeapContext s H) (terminal : TerminalClear s H) {before post : List Chunk} {c : Chunk}
    (split : H.chunks = before.reverse ++ c :: post) (used : c.free = false)
    (returned : free pageFree c.vma s = .ok ((), s')) :
    ∃ M, HeapContext s' M ∧ TerminalClear s' M ∧ M.chunks = afterFree before c post ∧
      (c :: liveOf M.chunks).Perm (liveOf H.chunks) ∧
      Stores (fun a => ∀ d, H.Live d → d ≠ c → ¬ d.Holds a) s s' ∧
      FreePath pageFree H.first H.stop s s' := by
  have live : KeepsLive H fun d => H.Live d ∧ d ≠ c := fun _ kept => kept.1
  have open_c : ¬ (H.Live c ∧ c ≠ c) := fun kept => kept.2 rfl
  rw [free_eq] at returned
  have others := liveOf_around split used
  cases rest : (absorbNext c post).2 with
  | nil =>
      obtain ⟨M, s₁, merged, touch₁, rep₁, first₁, stop₁, chunks₁, end₁, -⟩ :=
        free_merges ctx.rep split used (fun _ => terminal) live open_c
      have start₁ : M.first = align s₁.ctxt.start kmMinAllocSize := by
        rw [first₁, ctx.start, touch₁.start]
      have atEnd₁ : s₁.ctxt.heapEnd = M.stop := by rw [end₁, ctx.atEnd, stop₁]
      have usedM : (coalesce before c post).free = false := absorbPrev_used (absorbNext_used used)
      have liveM := live.merged split open_c chunks₁
      rw [rest] at chunks₁ others
      rw [merged, freeRelease_atEnd _ rep₁ chunks₁ atEnd₁, shrinkHeap] at returned
      obtain ⟨u, s₂, pages, returned⟩ := Prog.bind_eq_ok.mp returned
      have calm := freePages_quiet quiet _ _ _ _ _ _ pages
      cases returned
      have rangeM := M.range (c := coalesce before c post) (by simp [chunks₁])
      obtain ⟨rep₂, terminal₂⟩ := Represents.shrink
        (t := { s₂ with ctxt := { s₂.ctxt with heapEnd := (coalesce before c post).vma } }) rep₁
        chunks₁ usedM
        (fun a lower upper => calm.mem a
          (show align s₁.ctxt.start kmMinAllocSize ≤ a ∧ a < s₁.ctxt.heapEnd by omega))
        (by
          change s₂.ctxt.freeList = s₁.ctxt.freeList
          rw [calm.ctxt]
          rfl)
      refine ⟨M.shrink chunks₁ usedM, ⟨rep₂, ?_, rfl, ?_⟩, terminal₂, ?_, ?_, ?_, ?_⟩
      · change M.first = align s₂.ctxt.start kmMinAllocSize
        rw [calm.ctxt]
        exact start₁
      · exact absorbPrev_last (Heap.around_of_split split).1
      · rw [afterFree, rest]
        rfl
      · rw [liveOf_nil, List.append_nil] at others
        exact others
      · have quietTouch : Stores (fun a => ∀ d, H.Live d → d ≠ c → ¬ d.Holds a) s s₁ :=
          touch₁.stores.mono fun a inside d liveD differ => inside.2.2 d ⟨liveD, differ⟩
        have reading : Stores (fun a => ∀ d, H.Live d → d ≠ c → ¬ d.Holds a) s₁
            (s₁.loaded ((coalesce before c post).vma - 4)) := ⟨[.load _ _], rfl, by simp⟩
        refine (quietTouch.trans reading).trans (calm.stores.mono fun a out d liveD differ holds =>
          out ?_)
        exact ownWord_of_holds (s := s₁.loaded ((coalesce before c post).vma - 4)) start₁
          atEnd₁.ge (liveM d ⟨liveD, differ⟩).1 holds
      · rw [← first₁, ← stop₁]
        have atEnd₂ : (s₁.loaded ((coalesce before c post).vma - 4)).ctxt.heapEnd = M.stop := atEnd₁
        refine .atEnd ?_ atEnd₂ rangeM.1 (by omega) pages
        refine (touch₁.mono fun a within => first₁ ▸ stop₁ ▸ within.between).trans ?_
        exact (Runs.load (A := Between M.first M.stop) ⟨by omega, by omega⟩).2
  | cons d behind =>
      obtain ⟨M, s₁, run, rep₁, first₁, stop₁, chunks₁, end₁, terminal₁⟩ :=
        freeBy_inside ctx.rep split used (fun _ => terminal) live open_c (by
          rw [ctx.atEnd]
          exact (coalesce_stop_lt split (by simp [rest])).ne')
      have run := run (shrinkHeap pageFree)
      rw [run.1] at returned
      cases returned
      rw [rest] at chunks₁ others
      refine ⟨M, ⟨rep₁, ?_, ?_, ?_⟩, ?_, ?_, ?_, run.2.stores.mono fun a within d liveD differ =>
        within.2.2 d ⟨liveD, differ⟩, .inside (run.2.mono fun _ => Footprint.between)
          (end₁.trans ctx.atEnd)⟩
      · rw [first₁, run.2.start]
        exact ctx.start
      · rw [end₁, ctx.atEnd, stop₁]
      · intro e last
        refine ctx.closed e ?_
        rw [chunks₁] at last
        have same := absorbNext_getLast (c := c) (p := post) (by simp [rest])
        rw [rest] at same
        rw [split]
        cases post with
        | nil => simp [absorbNext] at rest
        | cons f post =>
            simp only [List.getLast?_append, List.getLast?_cons_cons] at last same ⊢
            rw [← same]
            exact last
      · rw [TerminalClear, stop₁, terminal₁]
        exact terminal
      · rw [chunks₁, afterFree, rest]
      · rw [chunks₁, liveOf_append, liveOf_cons_free rfl]
        exact others

/-- A block in use and the chunks around it. -/
theorem Heap.Live.split {c : Chunk} (liveC : H.Live c) :
    ∃ before post : List Chunk, H.chunks = before.reverse ++ c :: post := by
  obtain ⟨pre, post, split⟩ := List.append_of_mem liveC.1
  exact ⟨pre.reverse, post, by rw [List.reverse_reverse, split]⟩

/-- **`free` on a heap context**, when it returns: the block is gone, and no
other block in use was written. -/
theorem free_returned {pageFree : ℕ → KM π Unit} (quiet : ∀ v, Quiet (pageFree v))
    (ctx : HeapContext s H) (terminal : TerminalClear s H) {c : Chunk} (liveC : H.Live c)
    (returned : free pageFree c.vma s = .ok ((), s')) :
    ∃ M, HeapContext s' M ∧ TerminalClear s' M ∧
      (c :: liveOf M.chunks).Perm (liveOf H.chunks) ∧
      Stores (fun a => ∀ d, H.Live d → d ≠ c → ¬ d.Holds a) s s' ∧
      FreePath pageFree H.first H.stop s s' := by
  obtain ⟨before, post, split⟩ := liveC.split
  obtain ⟨M, ctxM, terminalM, -, rest⟩ := free_split quiet ctx terminal split liveC.2 returned
  exact ⟨M, ctxM, terminalM, rest⟩

end TrashOS
