import TrashOS.Heap.Loops

/-!
# First fit

What a request with the smallest alignment does to the heap, chunk by chunk and
node by node.  If a chunk of the free list is suitable, the first one in list
order serves the request, and nothing else changes; otherwise the heap grows by
the block and its descriptor.

The search itself is right for every request.  The extension returns only if the
new end does not lie behind the start of the last page: this is where the page
loop of `alloc` cannot pass its bound (`firstFit_complete_iff`).
-/

namespace TrashOS

variable {π : Type} {s s' : Sys π} {H : Heap} {n v : ℕ}

/-- A chunk that can serve a request of `n` bytes: of that size, or with room for
another chunk. -/
def Suitable (n : ℕ) (c : Chunk) : Prop := c.size = n ∨ n + 16 ≤ c.size

instance (n : ℕ) (c : Chunk) : Decidable (Suitable n c) := inferInstanceAs (Decidable (_ ∨ _))

/-- The free list can serve a request of `n` bytes. -/
def CanServe (H : Heap) (n : ℕ) : Prop := ∃ c ∈ H.chunks, c.free = true ∧ Suitable n c

instance (H : Heap) (n : ℕ) : Decidable (CanServe H n) :=
  inferInstanceAs (Decidable (∃ c ∈ H.chunks, _))

/-- `M` is `H` after its first suitable chunk, at `v`, served a request of `n`
bytes: the node left the free list, or the rest of the chunk took its place. -/
def FirstFit (H : Heap) (n v : ℕ) (M : Heap) : Prop :=
  ∃ (pre post : List Chunk) (c : Chunk) (us ws : List ℕ),
    H.chunks = pre ++ c :: post ∧ c.free = true ∧ c.vma = v ∧ H.order = us ++ v :: ws ∧
    (∀ d ∈ H.chunks, d.vma ∈ us → ¬ Suitable n d) ∧
    ((c.size = n ∧ M.order = us ++ ws ∧ M.chunks = pre ++ ⟨v, n, false⟩ :: post) ∨
      (n + 16 ≤ c.size ∧ M.order = us ++ (v + n + 8) :: ws ∧
        M.chunks = pre ++ ⟨v, n, false⟩ :: ⟨v + n + 8, c.size - n - 8, true⟩ :: post))

/-- `M` is `H` with a new block of `n` bytes at `v`, behind its last chunk. -/
def Appended (H : Heap) (n v : ℕ) (M : Heap) : Prop :=
  M.order = H.order ∧ M.chunks = H.chunks ++ [⟨v, n, false⟩]

/-- **First fit, complete**: the request returns; a suitable chunk serves it, and
the end of the heap and the page layer stay; otherwise the heap grows by the
block and its descriptor. -/
def FirstFitComplete [PageLayer π] (getPagePma : KM π ℕ) (s : Sys π) (H : Heap) (bytes : ℕ) :
    Prop :=
  ∃ v s' M, alloc getPagePma kmMinAllocSize bytes s = .ok (v, s') ∧ HeapContext s' M ∧
    (CanServe H (roundBytes bytes) → FirstFit H (roundBytes bytes) v M ∧
      s'.ctxt.heapEnd = s.ctxt.heapEnd ∧ s'.pages = s.pages) ∧
    (¬ CanServe H (roundBytes bytes) → Appended H (roundBytes bytes) v M ∧
      s'.ctxt.heapEnd = s.ctxt.heapEnd + roundBytes bytes + chunkDescSize)

/-! ## The search -/

/-- The chunks of a heap are suitable or passed over. -/
theorem suitable_iff {c : Chunk} (member : c ∈ H.chunks) (mult : n % 8 = 0) :
    Suitable n c ↔ ¬ (c.size ≠ n ∧ c.size ≤ n + 8) := by
  have range := H.range member
  unfold Suitable
  omega

theorem not_canServe_iff (mult : n % 8 = 0) : ¬ CanServe H n ↔ Unsuitable H n H.order := by
  constructor
  · intro none c member listed
    by_contra passed
    exact none ⟨c, member, Heap.free_of_mem_order member listed,
      (suitable_iff member mult).mpr passed⟩
  · rintro unsuitable ⟨c, member, isFree, suitable⟩
    refine (suitable_iff member mult).mp suitable (unsuitable c member ?_)
    exact Heap.mem_order.mpr ⟨c, member, isFree, rfl⟩

/-- What the search finds can serve the request. -/
theorem Found.canServe {M : Heap} (found : Found H n v M) (mult : n % 8 = 0) : CanServe H n := by
  cases found with
  | @take pre post c split isFree fit => exact ⟨c, by simp [split], isFree, Or.inl fit⟩
  | @cut pre post c split isFree pos multN room =>
      have range := H.range (c := c) (by simp [split])
      exact ⟨c, by simp [split], isFree, Or.inr (by omega)⟩

/-- The heap after the search found its block. -/
theorem Found.firstFit {M : Heap} {us ws : List ℕ} (found : Found H n v M)
    (mult : n % 8 = 0) (parts : H.order = us ++ v :: ws) (before : Unsuitable H n us) :
    FirstFit H n v M := by
  have nodup := H.nodup_order
  rw [parts] at nodup
  have passed : ∀ d ∈ H.chunks, d.vma ∈ us → ¬ Suitable n d := fun d member listed suitable =>
    (suitable_iff member mult).mp suitable (before d member listed)
  cases found with
  | @take pre post c split isFree fit =>
      refine ⟨pre, post, c, us, ws, split, isFree, rfl, parts, passed, Or.inl ⟨fit, ?_, ?_⟩⟩
      · have notMem : c.vma ∉ us := fun member =>
          (List.nodup_append.mp nodup).2.2 _ member _ List.mem_cons_self rfl
        change H.order.erase c.vma = _
        rw [parts, List.erase_append_right _ notMem, List.erase_cons_head]
      · rw [← fit]
        rfl
  | @cut pre post c split isFree pos multN room =>
      have range := H.range (c := c) (by simp [split])
      refine ⟨pre, post, c, us, ws, split, isFree, rfl, parts, passed,
        Or.inr ⟨by omega, ?_, rfl⟩⟩
      change Heap.renode c.vma (c.vma + n + 8) H.order = _
      rw [parts, Heap.renode_append_cons nodup]

variable [PageLayer π]

/-! ## The extension -/

/-- The smallest alignment leaves no gap. -/
theorem alignedEnd_kmMin (mult : v % 8 = 0) : alignedEnd v kmMinAllocSize = v := by
  unfold alignedEnd kmMinAllocSize
  omega

theorem align_kmMin (mult : v % 8 = 0) (word : v < 2 ^ 32) : align v kmMinAllocSize = v := by
  have aligned := (KernelAlignment.alignedEnd_spec (Or.inl rfl) mult
    (by rw [alignedEnd_kmMin mult]; exact word)).1
  rw [aligned, alignedEnd_kmMin mult]

/-- Only the aligned end is an end without padding. -/
theorem Padded.eq_of_stop {P : Heap} (padded : Padded H H.stop P) : P = H := by
  cases padded with
  | aligned => rfl
  | gap closed n pos mult fits eq => omega

/-- The extension returns if its supplier and the page layer do and the new end
does not lie behind the start of the last page. -/
theorem extendHeap_returns {getPagePma : KM π ℕ} (quiet : Quiet getPagePma)
    (supplies : ∀ s, ∃ pma s', getPagePma s = .ok (pma, s'))
    (sets : ∀ vma entry (s : Sys π), ∃ s', pageSetEntry vma entry s = .ok ((), s'))
    (ctx : HeapContext s H) (terminal : H.chunks ≠ [] → TerminalClear s H) (pos : 0 < n)
    (mult : n % 8 = 0) (fits : H.stop + n + 8 ≤ 2 ^ 32 - pageSize) :
    ∃ v s', extendHeap getPagePma kmMinAllocSize n s = .ok (v, s') := by
  have below : H.stop + n + 8 < 2 ^ 32 := by
    unfold pageSize at fits
    omega
  rcases extendHeap_opens ctx terminal (align_kmMin H.stop_aligned H.bound) le_rfl
    H.stop_aligned below with ⟨eight, -⟩ | ⟨P, s₁, padded, -, -, -, openP, split⟩
  · omega
  · obtain rfl := padded.eq_of_stop
    have loop := allocMapPages_eq getPagePma (show P.stop ≤ P.stop + n + 8 by omega) fits
      (length_startsBetween_lt (by omega))
    obtain ⟨s₂, mapped⟩ := mapEach_returns getPagePma supplies sets _
      { s₁ with ctxt := { s₁.ctxt with heapEnd := P.stop + n + 8 } }
    rw [← loop] at mapped
    have calm := allocMapPages_quiet quiet _ _ _ _ _ _ mapped
    have rep₂ := openP.rep.undisturbed openP.start openP.ahead.le calm
    obtain ⟨s₃, finish, -⟩ := allocFinish_runs rep₂ pos mult below fun _ kept => kept
    refine ⟨P.stop, s₃, ?_⟩
    rw [split, Prog.bind_of_ok mapped, Prog.bind_of_ok finish.1]
    rfl

/-- It does not return if the new end lies behind it, whatever the supplier. -/
theorem extendHeap_never_returns {getPagePma : KM π ℕ} (ctx : HeapContext s H)
    (terminal : H.chunks ≠ [] → TerminalClear s H) (word : H.stop + n + chunkDescSize < 2 ^ 32)
    (high : 2 ^ 32 - pageSize < H.stop + n + chunkDescSize) :
    extendHeap getPagePma kmMinAllocSize n s ≠ .ok (v, s') := by
  intro returned
  rcases extendHeap_opens ctx terminal (align_kmMin H.stop_aligned H.bound) le_rfl
    H.stop_aligned word with ⟨eight, -⟩ | ⟨P, s₁, -, -, -, -, -, split⟩
  · omega
  · rw [split] at returned
    obtain ⟨u, s₂, pages, -⟩ := Prog.bind_eq_ok.mp returned
    exact allocMapPages_never_returns getPagePma high pageFuel (align_page_mod H.bound)
      (Word32.add_lt _ _) pages

/-! ## The request -/

/-- A request that nothing in the free list can serve, with a new end behind the
start of the last page, never returns. -/
theorem not_firstFitComplete {getPagePma : KM π ℕ} (ctx : HeapContext s H)
    (terminal : H.chunks ≠ [] → TerminalClear s H) {bytes : ℕ} (request : bytes + 15 < 2 ^ 32)
    (newEnd : s.ctxt.heapEnd + roundBytes bytes + chunkDescSize < 2 ^ 32)
    (none : ¬ CanServe H (roundBytes bytes))
    (high : 2 ^ 32 - pageSize < s.ctxt.heapEnd + roundBytes bytes + chunkDescSize) :
    ¬ FirstFitComplete getPagePma s H bytes := by
  obtain ⟨pos, mult, -, -⟩ := roundBytes_spec request
  rintro ⟨v, s', M, returned, -⟩
  rw [ctx.atEnd] at newEnd high
  rcases alloc_cases ctx terminal kmMinAllocSize request with
    ⟨-, v, us, ws, M, t, parts, before, found, -⟩ | ⟨-, -, t, ctxT, terminalT, -, split⟩
  · exact none (found.canServe mult)
  · rw [split] at returned
    exact extendHeap_never_returns ctxT terminalT newEnd high returned

/-- **First fit is complete if and only if the free list can serve the request or the new end does
not lie behind the start of the last page.**  A request that the free list can serve takes the
first suitable chunk and leaves the end of the heap alone.  Every other one extends the heap, and
there the page loop counts up to the new end: when that lies inside the last page, the counter
wraps around before it gets there and the call never returns.  `request` and `newEnd` exclude the
sums that wrap around on the way to the loop. -/
theorem firstFit_complete_iff {getPagePma : KM π ℕ} (quiet : Quiet getPagePma)
    (supplies : ∀ s, ∃ pma s', getPagePma s = .ok (pma, s'))
    (sets : ∀ vma entry (s : Sys π), ∃ s', pageSetEntry vma entry s = .ok ((), s'))
    (ctx : HeapContext s H) (terminal : H.chunks ≠ [] → TerminalClear s H) {bytes : ℕ}
    (request : bytes + 15 < 2 ^ 32)
    (newEnd : s.ctxt.heapEnd + roundBytes bytes + chunkDescSize < 2 ^ 32) :
    FirstFitComplete getPagePma s H bytes ↔
      CanServe H (roundBytes bytes) ∨
        s.ctxt.heapEnd + roundBytes bytes + chunkDescSize ≤ 2 ^ 32 - pageSize := by
  obtain ⟨pos, mult, -, -⟩ := roundBytes_spec request
  rw [ctx.atEnd] at newEnd ⊢
  rcases alloc_cases ctx terminal kmMinAllocSize request with
    ⟨-, v, us, ws, M, t, parts, before, found, ctxM, -, touch, split⟩ |
    ⟨-, unsuitable, t, ctxT, terminalT, touch, split⟩
  · have serves := found.canServe mult
    refine iff_of_true ⟨v, t, M, split _, ctxM, fun _ => ⟨found.firstFit mult parts before, ?_,
      touch.pages⟩, fun none => absurd serves none⟩ (Or.inl serves)
    rw [ctxM.atEnd, found.stop, ctx.atEnd]
  · have none := (not_canServe_iff mult).mpr (unsuitable rfl)
    constructor
    · intro complete
      right
      by_contra high
      rw [← ctx.atEnd] at newEnd high
      exact not_firstFitComplete ctx terminal request newEnd none (Nat.not_le.mp high) complete
    · rintro (serves | fits)
      · exact absurd serves none
      · obtain ⟨v, s', returned⟩ :=
          extendHeap_returns quiet supplies sets ctxT terminalT pos mult fits
        obtain ⟨P, padded, rfl, room, ctxP, -⟩ := extendHeap_returned quiet ctxT terminalT
          (align_kmMin H.stop_aligned H.bound) le_rfl H.stop_aligned pos mult newEnd returned
        obtain rfl := padded.eq_of_stop
        refine ⟨P.stop, s', _, (split _).trans returned, ctxP, fun serves => absurd serves none,
          fun _ => ⟨⟨rfl, rfl⟩, ?_⟩⟩
        rw [ctxP.atEnd, ctx.atEnd]
        rfl

/-- A free chunk of 32 bytes before a block of 8. -/
def holedHeap : Heap where
  first := 0x2000
  chunks := [⟨0x2008, 32, true⟩, ⟨0x2030, 8, false⟩]
  order := [0x2008]
  stop := 0x2040
  aligned := by decide
  tiled := by simp
  bound := by decide
  members := by decide
  coalesced := by simp [NotBothFree]

/-- That heap in memory. -/
def holed : Sys AllMapped where
  mem a := if a = 0x2004 ∨ a = 0x2028 then 33 else if a = 0x202c ∨ a = 0x2038 then 8 else 0
  ctxt := ⟨0x2008, 0x2000, 0x2040⟩
  pages := ⟨⟩
  log := []

theorem holed_context : HeapContext holed holedHeap where
  rep :=
    { base := rfl
      ownTag := by decide
      nextTag := by decide
      links := by
        unfold NodeList
        simp [holed, holedHeap] }
  start := by decide +kernel
  atEnd := rfl
  closed := by simp [Heap.Closed, holedHeap]

/-- A block of 8 bytes from the chunk of 32. -/
theorem firstFit_complete_of_hole : FirstFitComplete (pure 0) holed holedHeap 8 :=
  (firstFit_complete_iff (quiet_pure 0) (fun s => ⟨0, s, rfl⟩) (fun _ _ _ => ⟨_, rfl⟩)
    holed_context (fun _ => rfl) (by decide) (by decide +kernel)).mpr
    (Or.inl ⟨⟨0x2008, 32, true⟩, by simp [holedHeap], rfl, by unfold Suitable; decide +kernel⟩)

/-- A new heap in the last page but one. -/
def topHeap : Heap where
  first := 0xFFFFEFF0
  chunks := []
  order := []
  stop := 0xFFFFEFF8
  aligned := by decide
  tiled := by simp
  bound := by decide
  members := by decide
  coalesced := by simp

/-- That heap in memory. -/
def top : Sys AllMapped where
  mem _ := 0
  ctxt := ⟨0, 0xFFFFEFF0, 0xFFFFEFF8⟩
  pages := ⟨⟩
  log := []

theorem top_context : HeapContext top topHeap where
  rep := ⟨rfl, by simp [topHeap], by simp [topHeap], rfl⟩
  start := by decide +kernel
  atEnd := rfl
  closed := by simp [Heap.Closed, topHeap]

/-- `alloc(8)` at the heap end `0xFFFFEFF8` never returns, although the new end
`0xFFFFF008` does not wrap around. -/
theorem firstFit_never_returns_at_top :
    ¬ ∀ (s : Sys AllMapped) (H : Heap) (bytes : ℕ), HeapContext s H →
      (H.chunks ≠ [] → TerminalClear s H) → bytes + 15 < 2 ^ 32 →
      s.ctxt.heapEnd + roundBytes bytes + chunkDescSize < 2 ^ 32 →
      FirstFitComplete (pure 0) s H bytes := by
  intro all
  have newEnd : top.ctxt.heapEnd + roundBytes 8 + chunkDescSize < 2 ^ 32 := by decide +kernel
  have none : ¬ CanServe topHeap (roundBytes 8) := by
    rintro ⟨c, member, -⟩
    simp [topHeap] at member
  exact not_firstFitComplete top_context (fun nonempty => absurd rfl nonempty) (by decide) newEnd
    none (by decide +kernel) (all top topHeap 8 top_context (fun nonempty => absurd rfl nonempty)
      (by decide) newEnd)

end TrashOS
