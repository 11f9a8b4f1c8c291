import TrashOS.Heap.Words

/-!
# `free` on a heap

The pieces of `free` run forwards.  The chunk being freed is shown between its
neighbours as `before.reverse ++ c :: post`, so that both merges look at the
head of a list: `absorbNext` and `absorbPrev` say which chunk results.

* `freeMergeNext_runs`, `freeMergePrev_runs` — merging with the neighbours;
* `freeRelease_inside` — a chunk inside the heap goes to the free list;
* `freePages_runs` and `shrink_represents` — a chunk at the end leaves the heap.

Every piece states its footprint: descriptors and free chunks only, never a
chunk in `keep`.
-/

namespace TrashOS

variable {π : Type}

/-! ## Merged chunks -/

/-- The chunk `c` together with the chunk behind it, if that is free. -/
def absorbNext (c : Chunk) : List Chunk → Chunk × List Chunk
  | [] => (c, [])
  | d :: post =>
      if d.free then (⟨c.vma, c.size + 8 + d.size, false⟩, post) else (c, d :: post)

/-- The chunk `c` together with the chunk before it, if that is free.  The
chunks before `c` are listed backwards. -/
def absorbPrev (c : Chunk) : List Chunk → Chunk × List Chunk
  | [] => (c, [])
  | a :: before =>
      if a.free then (⟨a.vma, a.size + 8 + c.size, false⟩, before) else (c, a :: before)

section Absorb

variable {c : Chunk} {before post : List Chunk}

theorem absorbNext_of_free {d : Chunk} (isFree : d.free = true) :
    absorbNext c (d :: post) = (⟨c.vma, c.size + 8 + d.size, false⟩, post) := by
  simp [absorbNext, isFree]

theorem absorbNext_of_used {d : Chunk} (used : d.free = false) :
    absorbNext c (d :: post) = (c, d :: post) := by
  simp [absorbNext, used]

theorem absorbPrev_of_free {a : Chunk} (isFree : a.free = true) :
    absorbPrev c (a :: before) = (⟨a.vma, a.size + 8 + c.size, false⟩, before) := by
  simp [absorbPrev, isFree]

theorem absorbPrev_of_used {a : Chunk} (used : a.free = false) :
    absorbPrev c (a :: before) = (c, a :: before) := by
  simp [absorbPrev, used]

theorem absorbNext_used (used : c.free = false) : (absorbNext c post).1.free = false := by
  cases post with
  | nil => exact used
  | cons d post =>
      cases isFree : d.free with
      | false => rwa [absorbNext_of_used isFree]
      | true => rw [absorbNext_of_free isFree]

theorem absorbPrev_used (used : c.free = false) : (absorbPrev c before).1.free = false := by
  cases before with
  | nil => exact used
  | cons a before =>
      cases isFree : a.free with
      | false => rwa [absorbPrev_of_used isFree]
      | true => rw [absorbPrev_of_free isFree]

@[simp] theorem absorbNext_vma : (absorbNext c post).1.vma = c.vma := by
  cases post with
  | nil => rfl
  | cons d post =>
      cases isFree : d.free with
      | false => rw [absorbNext_of_used isFree]
      | true => rw [absorbNext_of_free isFree]

/-- The merge does not reach past the chunk behind. -/
theorem absorbNext_getLast {p : List Chunk} (more : (absorbNext c p).2 ≠ []) :
    (absorbNext c p).2.getLast? = p.getLast? := by
  cases p with
  | nil => rfl
  | cons d post =>
      cases isFree : d.free with
      | false => rw [absorbNext_of_used isFree]
      | true =>
          rw [absorbNext_of_free isFree] at more ⊢
          cases post with
          | nil => exact absurd rfl more
          | cons e post => simp

/-- Chunks in use are not absorbed. -/
theorem mem_absorbNext {d : Chunk} (member : d ∈ post) (used : d.free = false) :
    d ∈ (absorbNext c post).2 := by
  cases post with
  | nil => simp at member
  | cons e post =>
      cases isFree : e.free with
      | false => rwa [absorbNext_of_used isFree]
      | true =>
          rw [absorbNext_of_free isFree]
          refine (List.mem_cons.mp member).resolve_left fun same => ?_
          simp [same, isFree] at used

/-- Chunks in use are not absorbed. -/
theorem mem_absorbPrev {d : Chunk} (member : d ∈ before) (used : d.free = false) :
    d ∈ (absorbPrev c before).2 := by
  cases before with
  | nil => simp at member
  | cons e before =>
      cases isFree : e.free with
      | false => rwa [absorbPrev_of_used isFree]
      | true =>
          rw [absorbPrev_of_free isFree]
          refine (List.mem_cons.mp member).resolve_left fun same => ?_
          simp [same, isFree] at used

/-- After the merge the chunk behind is in use. -/
theorem absorbNext_head (chain : post.IsChain NotBothFree) :
    ∀ d ∈ (absorbNext c post).2.head?, d.free = false := by
  cases post with
  | nil => simp [absorbNext]
  | cons d post =>
      cases isFree : d.free with
      | false => simp [absorbNext_of_used isFree, isFree]
      | true =>
          rw [absorbNext_of_free isFree]
          intro e member
          have := (List.isChain_cons.mp chain).1 e member
          simpa [NotBothFree, isFree] using this

/-- After the merge the chunk before is in use. -/
theorem absorbPrev_last (chain : before.reverse.IsChain NotBothFree) :
    ∀ a ∈ (absorbPrev c before).2.reverse.getLast?, a.free = false := by
  cases before with
  | nil => simp [absorbPrev]
  | cons a before =>
      cases isFree : a.free with
      | false => simp [absorbPrev_of_used isFree, isFree]
      | true =>
          rw [absorbPrev_of_free isFree]
          intro e member
          rw [List.reverse_cons, chain_around] at chain
          have := chain.2.2.1 e member
          simpa [NotBothFree, isFree] using this

end Absorb

/-! ## Representation after a change -/

/-- A heap is represented after an update if its chunks are old ones whose tags
are untouched or new ones whose tags were written. -/
theorem Represents.change {s s' : Sys π} {H M : Heap} (rep : Represents s H)
    (first : M.first = H.first) (base : s'.mem H.first = s.mem H.first)
    (tags : ∀ e ∈ M.chunks,
      (e ∈ H.chunks ∧ s'.mem (e.vma - 4) = s.mem (e.vma - 4) ∧
        s'.mem (e.vma + e.size) = s.mem (e.vma + e.size)) ∨
      (s'.mem (e.vma - 4) = e.tag ∧ s'.mem (e.vma + e.size) = e.tag))
    (links : NodeList s'.mem s'.ctxt.freeList M.order) : Represents s' M where
  base := by rw [first, base, rep.base]
  ownTag e member := by
    rcases tags e member with ⟨old, own, -⟩ | ⟨own, -⟩
    · rw [own, rep.ownTag e old]
    · exact own
  nextTag e member := by
    rcases tags e member with ⟨old, -, next⟩ | ⟨-, next⟩
    · rw [next, rep.nextTag e old]
    · exact next
  links := links

namespace Heap

variable {H : Heap} {pre post : List Chunk} {c d : Chunk}

/-- The chunk behind a chunk starts after one descriptor. -/
theorem next_vma (split : H.chunks = pre ++ c :: d :: post) : d.vma = c.vma + c.size + 8 := by
  obtain ⟨m, -, start, -, -, next, -⟩ := tiled_append.mp (tiled_split split)
  omega

/-- The last chunk ends one descriptor before the end of the region. -/
theorem last_stop (split : H.chunks = pre ++ [c]) : H.stop = c.vma + c.size + 8 :=
  (tiled_split split).dropLast.2

/-- What lies before a chunk and what lies behind it. -/
theorem before_and_behind (split : H.chunks = pre ++ c :: post) :
    (∀ e ∈ pre, e ∈ H.chunks ∧ e.vma + e.size + 8 ≤ c.vma) ∧
      ∀ e ∈ post, e ∈ H.chunks ∧ c.vma + c.size + 8 ≤ e.vma := by
  obtain ⟨left, right⟩ := (tiled_split split).around
  exact ⟨fun e member => ⟨by simp [split, member], left e member⟩,
    fun e member => ⟨by simp [split, member], right e member⟩⟩

/-- The first chunk starts after the first descriptor. -/
theorem head_vma (split : H.chunks = c :: post) : c.vma = H.first + 8 := by
  have tiled := H.tiled
  rw [split] at tiled
  exact tiled.1

end Heap

/-- Two neighbours made one: the free list was updated first, giving `s₁`, then
the new size was written into the two outer tags. -/
theorem Represents.merged {s s₁ s₂ : Sys π} {H M : Heap} {pre post : List Chunk} {a c : Chunk}
    (rep : Represents s H) (split : H.chunks = pre ++ a :: c :: post) (first : M.first = H.first)
    (chunks : M.chunks = pre ++ ⟨a.vma, a.size + 8 + c.size, false⟩ :: post)
    (links : NodeList s₁.mem s₁.ctxt.freeList M.order) (sub : ∀ n ∈ M.order, n ∈ H.order)
    (frame : ∀ b, OffLists H b → s₁.mem b = s.mem b)
    (mem : s₂.mem = Function.update (Function.update s₁.mem (a.vma - 4) (a.size + 8 + c.size))
      (a.vma + (a.size + 8 + c.size)) (a.size + 8 + c.size))
    (head : s₂.ctxt.freeList = s₁.ctxt.freeList) :
    Represents s₂ M ∧ s₂.mem (H.stop - 4) = s.mem (H.stop - 4) := by
  have memA : a ∈ H.chunks := by simp [split]
  have memC : c ∈ H.chunks := by simp [split]
  have rangeA := H.range memA
  have rangeC := H.range memC
  have next := Heap.next_vma split
  have around := Heap.before_and_behind split
  have splitC : H.chunks = (pre ++ [a]) ++ c :: post := by simp [split]
  have aroundC := Heap.before_and_behind splitC
  have untouched : ∀ b, OffLists H b → b ≠ a.vma - 4 → b ≠ a.vma + (a.size + 8 + c.size) →
      s₂.mem b = s.mem b := by
    intro b off ne_own ne_next
    rw [mem, Function.update_of_ne ne_next, Function.update_of_ne ne_own, frame b off]
  have tags : ∀ e ∈ H.chunks, e.vma + e.size + 8 ≤ a.vma ∨ c.vma + c.size + 8 ≤ e.vma →
      s₂.mem (e.vma - 4) = s.mem (e.vma - 4) ∧
        s₂.mem (e.vma + e.size) = s.mem (e.vma + e.size) := by
    intro e memE clear
    have rangeE := H.range memE
    exact ⟨untouched _ (offLists_before memE (by omega) (by omega)) (by omega) (by omega),
      untouched _ (offLists_after memE le_rfl (by omega)) (by omega) (by omega)⟩
  constructor
  · refine rep.change first (untouched _ offLists_first (by omega) (by omega))
      (fun e member => ?_) ?_
    · rw [chunks] at member
      rcases List.mem_append.mp member with left | here
      · obtain ⟨memE, clear⟩ := around.1 e left
        exact Or.inl ⟨memE, tags e memE (Or.inl clear)⟩
      · rcases List.mem_cons.mp here with rfl | right
        · right
          constructor
          · simp only [mem, Chunk.tag_used]
            rw [Function.update_of_ne (by omega), Function.update_self]
          · simp only [mem, Chunk.tag_used, Function.update_self]
        · obtain ⟨memE, clear⟩ := aroundC.2 e right
          exact Or.inl ⟨memE, tags e memE (Or.inr clear)⟩
    · rw [head, mem]
      refine links.off (H := H) sub fun b on => ?_
      have offNext : OffLists H (a.vma + (a.size + 8 + c.size)) :=
        offLists_after memC (by omega) (by omega)
      have offOwn : OffLists H (a.vma - 4) := offLists_before memA (by omega) (by omega)
      rw [Function.update_of_ne fun eq => on (by rwa [eq]),
        Function.update_of_ne fun eq => on (by rwa [eq])]
  · exact untouched _ (offLists_of_stop_le (by omega)) (by omega) (by omega)

/-! ## The end-of-heap branch as a parameter -/

variable [PageLayer π]

/-- `free`, "Check to see if block is at the end of the heap", with any code in
the branch where it is. -/
def freeReleaseBy (atEnd : ℕ → ℕ → KM π Unit) (vma : ℕ) : KM π Unit := do
  let size ← allocGetSize vma
  let heapEnd ← getEnd
  if Word32.add (Word32.add vma size) chunkDescSize = heapEnd then
    atEnd heapEnd vma
  else do
    allocSetFree vma
    allocNodeAdd vma

/-- `free` with any code in its end-of-heap branch. -/
def freeBy (atEnd : ℕ → ℕ → KM π Unit) (vma : ℕ) : KM π Unit := do
  let chunkNext ← allocGetNextDesc vma
  let chunkPrev ← allocGetPrevDesc vma
  freeMergeNext chunkNext vma
  let vma ← freeMergePrev chunkPrev vma
  freeReleaseBy atEnd vma

/-- The end-of-heap branch of `free`. -/
def shrinkHeap (pageFree : ℕ → KM π Unit) (heapEnd vma : ℕ) : KM π Unit := do
  freePages pageFree vma pageFuel (heapEnd &&& Word32.not 0xfff)
  setEnd vma

theorem free_eq (pageFree : ℕ → KM π Unit) : free pageFree = freeBy (shrinkHeap pageFree) := rfl

/-! ## Merging -/

variable {s : Sys π} {H : Heap} {keep : Chunk → Prop} {c : Chunk}
  {before post : List Chunk}

/-- Writing a new size into both tags of a chunk, as both merges do. -/
theorem retag_runs {A : ℕ → Prop} {v n : ℕ} (low : 8 ≤ v) (fits : v + n < 2 ^ 32)
    (mult : n % 8 = 0) (inOwn : A (v - 4)) (inNext : A (v + n)) :
    ∃ s', Runs A s (do
        store (v - 4) n
        let desc ← allocGetNextDesc v
        let size ← load (v - 4)
        store (sizePrevField desc) size) () s' ∧
      s'.mem = Function.update (Function.update s.mem (v - 4) n) (v + n) n ∧
      s'.ctxt = s.ctxt := by
  refine ⟨(((s.stored (v - 4) n).loaded (v - 4)).loaded (v - 4)).stored (v + n) n, ?_, rfl, rfl⟩
  refine (Runs.store inOwn).bind ?_
  refine (allocGetNextDesc_runs (n := n) low fits ?_ inOwn).bind ?_
  · rw [stored_mem, Function.update_self, clearFlags_eq (by omega)]
    omega
  · refine (Runs.load inOwn).bind ?_
    rw [loaded_mem, stored_mem, Function.update_self]
    exact Runs.store inNext

/-- `free`, "Try to combine with next memory chunk", when that is in use. -/
theorem freeMergeNext_skip {n d : ℕ} (highNext : d + 4 < 2 ^ 32) {A : ℕ → Prop} (inside : A (d + 4))
    (flag : s.mem (d + 4) % 2 = 0) :
    Runs A s (freeMergeNext d n) () (s.loaded (d + 4)) := by
  unfold freeMergeNext
  rw [sizeField_eq highNext]
  refine (Runs.load inside).bind (Runs.ite_neg ?_ (Runs.pure _))
  rw [and_free, flag]
  simp

/-- `free`, "Try to combine with next memory chunk", when that is free. -/
theorem freeMergeNext_merge {d : Chunk} (rep : Represents s H)
    (split : H.chunks = before.reverse ++ c :: d :: post) (used : c.free = false)
    (isFree : d.free = true) (live : KeepsLive H keep) (open_c : ¬ keep c) :
    ∃ s', Runs (Footprint H.first H.stop keep) s (freeMergeNext (c.vma + c.size) c.vma) () s' ∧
      Represents s' (H.mergeNext split used isFree) ∧
      s'.ctxt.heapEnd = s.ctxt.heapEnd ∧ s'.mem (H.stop - 4) = s.mem (H.stop - 4) := by
  have memC : c ∈ H.chunks := by simp [split]
  have memD : d ∈ H.chunks := by simp [split]
  have rangeC := H.range memC
  have rangeD := H.range memD
  have bound := H.bound
  have next := Heap.next_vma split
  have within : ∀ a, c.vma ≤ a + 8 → a < c.vma + c.size + 8 →
      Footprint H.first H.stop keep a := fun a lower upper =>
    Footprint.of_chunk live memC open_c le_rfl lower upper
  have withinD : ∀ a, d.vma ≤ a + 8 → a < d.vma + d.size + 8 →
      Footprint H.first H.stop keep a := fun a lower upper =>
    Footprint.of_chunk live memD (live.not_free isFree) le_rfl lower upper
  have tagD : s.mem (c.vma + c.size + 4) = d.size + 1 := by
    rw [← Chunk.tag_of_free isFree, ← rep.ownTag d memD]
    congr 1
    omega
  obtain ⟨s₁, run₁, links, frame, sameEnd⟩ :=
    Represents.unlink_runs (s := s.loaded (c.vma + c.size + 4)) (H := H)
      (rep.congr rfl (fun _ _ => ⟨rfl, rfl⟩) (fun _ _ _ => ⟨rfl, rfl⟩) rfl)
      (Heap.goodNodes live le_rfl) memD isFree
  simp only [loaded_mem, loaded_ctxt] at frame sameEnd
  have own₁ : s₁.mem (c.vma - 4) = c.size := by
    rw [frame _ (offLists_before memC (by omega) (by omega)), rep.ownTag c memC,
      Chunk.tag_of_used used]
  have next₁ : s₁.mem (c.vma + c.size + 4) = d.size + 1 := by
    rw [frame _ (offLists_after memC (by omega) (by omega)), tagD]
  have sum : Word32.add c.size (Word32.add d.size chunkDescSize) = c.size + 8 + d.size := by
    rw [chunkDescSize, Word32.add_eq (a := d.size) (by omega), Word32.add_eq (by omega)]
    omega
  obtain ⟨s₂, run₂, mem₂, ctxt₂⟩ := retag_runs (A := Footprint H.first H.stop keep)
    (s := ((s₁.loaded (c.vma - 4)).loaded (c.vma - 4)).loaded (c.vma + c.size + 4))
    (v := c.vma) (n := c.size + 8 + d.size) (by omega) (by omega) (by omega)
    (within _ (by omega) (by omega)) (withinD _ (by omega) (by omega))
  simp only [loaded_mem, loaded_ctxt] at mem₂ ctxt₂
  have run : Runs (Footprint H.first H.stop keep) s
      (freeMergeNext (c.vma + c.size) c.vma) () s₂ := by
    unfold freeMergeNext
    dsimp only
    rw [sizeField_eq (by omega), sizeField_allocGetDesc (by omega) (by omega),
      allocGetNode_eq (by omega), ← next]
    refine (Runs.load (within _ (by omega) (by omega))).bind (Runs.ite_pos ?_ ?_)
    · rw [and_free, tagD]
      omega
    · refine run₁.bind ((Runs.load (within _ (by omega) (by omega))).bind ?_)
      refine (allocGetSizeNext_runs (n := c.size) (m := d.size) (by omega) (by omega) ?_
        (within _ (by omega) (by omega)) ?_ (within _ (by omega) (by omega))).bind ?_
      · rw [loaded_mem, own₁, clearFlags_eq (by omega)]
        omega
      · rw [loaded_mem, next₁, clearFlags_eq (by omega)]
        omega
      · rw [own₁, sum]
        exact run₂
  obtain ⟨rep₂, sameStop⟩ := rep.merged (M := H.mergeNext split used isFree) split rfl rfl
    links (fun n listed => List.mem_of_mem_erase listed) frame mem₂ (by rw [ctxt₂])
  exact ⟨s₂, run, rep₂, by rw [ctxt₂, sameEnd], sameStop⟩

/-- `free`, "Try to combine with next memory chunk". -/
theorem freeMergeNext_runs (rep : Represents s H) (split : H.chunks = before.reverse ++ c :: post)
    (used : c.free = false) (terminal : post = [] → TerminalClear s H)
    (live : KeepsLive H keep) (open_c : ¬ keep c) :
    ∃ M s', Runs (Footprint H.first H.stop keep) s (freeMergeNext (c.vma + c.size) c.vma) () s' ∧
      Represents s' M ∧ M.first = H.first ∧ M.stop = H.stop ∧
      M.chunks = before.reverse ++ (absorbNext c post).1 :: (absorbNext c post).2 ∧
      s'.ctxt.heapEnd = s.ctxt.heapEnd ∧ s'.mem (H.stop - 4) = s.mem (H.stop - 4) := by
  have memC : c ∈ H.chunks := by simp [split]
  have rangeC := H.range memC
  have bound := H.bound
  have inside : Footprint H.first H.stop keep (c.vma + c.size + 4) :=
    Footprint.of_chunk live memC open_c le_rfl (by omega) (by omega)
  have same : Represents (s.loaded (c.vma + c.size + 4)) H :=
    rep.congr rfl (fun _ _ => ⟨rfl, rfl⟩) (fun _ _ _ => ⟨rfl, rfl⟩) rfl
  cases post with
  | nil =>
      have flag : s.mem (c.vma + c.size + 4) % 2 = 0 := by
        have stop := Heap.last_stop split
        rw [show c.vma + c.size + 4 = H.stop - 4 by omega]
        exact terminal rfl
      exact ⟨H, _, freeMergeNext_skip (by omega) inside flag, same, rfl, rfl, split, rfl, rfl⟩
  | cons d post =>
      cases isFree : d.free with
      | false =>
          have memD : d ∈ H.chunks := by simp [split]
          have flag : s.mem (c.vma + c.size + 4) % 2 = 0 := by
            have next := Heap.next_vma split
            rw [show c.vma + c.size + 4 = d.vma - 4 by omega, rep.ownTag d memD,
              Chunk.tag_of_used isFree]
            have := H.range memD
            omega
          refine ⟨H, _, freeMergeNext_skip (by omega) inside flag, same, rfl, rfl, ?_, rfl, rfl⟩
          rw [absorbNext_of_used isFree]
          exact split
      | true =>
          obtain ⟨s', run, rep', sameEnd, sameStop⟩ :=
            freeMergeNext_merge rep split used isFree live open_c
          refine ⟨_, s', run, rep', rfl, rfl, ?_, sameEnd, sameStop⟩
          rw [absorbNext_of_free isFree]
          rfl

/-- `free`, "Try to combine with previous memory chunk", when that is in use. -/
theorem freeMergePrev_skip {n d : ℕ} (low : 8 ≤ n) (high : n < 2 ^ 32) {A : ℕ → Prop}
    (inside : A (n - 8)) (flag : s.mem (n - 8) % 2 = 0) :
    Runs A s (freeMergePrev d n) n (s.loaded (n - 8)) := by
  unfold freeMergePrev
  dsimp only
  rw [sizePrevField_allocGetDesc low high]
  refine (Runs.load inside).bind (Runs.ite_neg ?_ (Runs.pure _))
  rw [and_free, flag]
  simp

/-- `free`, "Try to combine with previous memory chunk", when that is free. -/
theorem freeMergePrev_merge {a : Chunk} {pre : List Chunk} (rep : Represents s H)
    (split : H.chunks = pre ++ a :: c :: post) (isFree : a.free = true)
    (used : c.free = false) (live : KeepsLive H keep) (open_c : ¬ keep c) :
    ∃ s', Runs (Footprint H.first H.stop keep) s (freeMergePrev (a.vma - 8) c.vma) a.vma s' ∧
      Represents s' (H.mergePrev split isFree used) ∧
      s'.ctxt.heapEnd = s.ctxt.heapEnd ∧ s'.mem (H.stop - 4) = s.mem (H.stop - 4) := by
  have memA : a ∈ H.chunks := by simp [split]
  have memC : c ∈ H.chunks := by simp [split]
  have rangeA := H.range memA
  have rangeC := H.range memC
  have bound := H.bound
  have next := Heap.next_vma split
  have within : ∀ b, c.vma ≤ b + 8 → b < c.vma + c.size + 8 →
      Footprint H.first H.stop keep b := fun b lower upper =>
    Footprint.of_chunk live memC open_c le_rfl lower upper
  have withinA : ∀ b, a.vma ≤ b + 8 → b < a.vma + a.size + 8 →
      Footprint H.first H.stop keep b := fun b lower upper =>
    Footprint.of_chunk live memA (live.not_free isFree) le_rfl lower upper
  have tagA : s.mem (c.vma - 8) = a.size + 1 := by
    rw [← Chunk.tag_of_free isFree, ← rep.nextTag a memA]
    congr 1
    omega
  obtain ⟨s₁, run₁, links, frame, sameEnd⟩ :=
    Represents.unlink_runs (s := s.loaded (c.vma - 8)) (H := H)
      (rep.congr rfl (fun _ _ => ⟨rfl, rfl⟩) (fun _ _ _ => ⟨rfl, rfl⟩) rfl)
      (Heap.goodNodes live le_rfl) memA isFree
  simp only [loaded_mem, loaded_ctxt] at frame sameEnd
  have prev₁ : s₁.mem (c.vma - 8) = a.size + 1 := by
    rw [frame _ (offLists_before memC (by omega) (by omega)), tagA]
  have own₁ : s₁.mem (c.vma - 4) = c.size := by
    rw [frame _ (offLists_before memC (by omega) (by omega)), rep.ownTag c memC,
      Chunk.tag_of_used used]
  have sum : Word32.add (Word32.add a.size c.size) chunkDescSize = a.size + 8 + c.size := by
    rw [chunkDescSize, Word32.add_eq (a := a.size) (by omega), Word32.add_eq (by omega)]
    omega
  obtain ⟨s₂, run₂, mem₂, ctxt₂⟩ := retag_runs (A := Footprint H.first H.stop keep)
    (s := (s₁.loaded (c.vma - 8)).loaded (c.vma - 4))
    (v := a.vma) (n := a.size + 8 + c.size) (by omega) (by omega) (by omega)
    (withinA _ (by omega) (by omega)) (within _ (by omega) (by omega))
  simp only [loaded_mem, loaded_ctxt] at mem₂ ctxt₂
  have run : Runs (Footprint H.first H.stop keep) s
      (freeMergePrev (a.vma - 8) c.vma) a.vma s₂ := by
    unfold freeMergePrev
    dsimp only
    rw [sizePrevField_allocGetDesc (by omega) (by omega), allocGetNode_eq (by omega),
      sizeField_eq (by omega), show a.vma - 8 + 8 = a.vma by omega,
      show a.vma - 8 + 4 = a.vma - 4 by omega]
    refine (Runs.load (within _ (by omega) (by omega))).bind (Runs.ite_pos ?_ ?_)
    · rw [and_free, tagA]
      omega
    · refine run₁.bind ?_
      refine (allocGetSizePrev_runs (n := a.size) (by omega) (by omega) ?_
        (within _ (by omega) (by omega))).bind ?_
      · rw [prev₁, clearFlags_eq (by omega)]
        omega
      · refine (allocGetSize_runs (n := c.size) (by omega) (by omega) ?_
          (within _ (by omega) (by omega))).bind ?_
        · rw [loaded_mem, own₁, clearFlags_eq (by omega)]
          omega
        · rw [sum]
          have tail := Runs.bind (f := fun _ => pure a.vma) run₂ (Runs.pure a.vma)
          simp only [Prog.bind_assoc] at tail
          exact tail
  obtain ⟨rep₂, sameStop⟩ := rep.merged (M := H.mergePrev split isFree used) split rfl rfl
    links (fun n listed => List.mem_of_mem_erase listed) frame mem₂ (by rw [ctxt₂])
  exact ⟨s₂, run, rep₂, by rw [ctxt₂, sameEnd], sameStop⟩

/-- `free`, "Try to combine with previous memory chunk". -/
theorem freeMergePrev_runs {chunkPrev : ℕ} (rep : Represents s H)
    (split : H.chunks = before.reverse ++ c :: post) (used : c.free = false)
    (live : KeepsLive H keep) (open_c : ¬ keep c)
    (prev : ∀ a ∈ before.head?, chunkPrev = a.vma - 8) :
    ∃ M s', Runs (Footprint H.first H.stop keep) s (freeMergePrev chunkPrev c.vma)
        (absorbPrev c before).1.vma s' ∧
      Represents s' M ∧ M.first = H.first ∧ M.stop = H.stop ∧
      M.chunks = (absorbPrev c before).2.reverse ++ (absorbPrev c before).1 :: post ∧
      s'.ctxt.heapEnd = s.ctxt.heapEnd ∧ s'.mem (H.stop - 4) = s.mem (H.stop - 4) := by
  have memC : c ∈ H.chunks := by simp [split]
  have rangeC := H.range memC
  have bound := H.bound
  have inside : Footprint H.first H.stop keep (c.vma - 8) :=
    Footprint.of_chunk live memC open_c le_rfl (by omega) (by omega)
  have same : Represents (s.loaded (c.vma - 8)) H :=
    rep.congr rfl (fun _ _ => ⟨rfl, rfl⟩) (fun _ _ _ => ⟨rfl, rfl⟩) rfl
  cases before with
  | nil =>
      have flag : s.mem (c.vma - 8) % 2 = 0 := by
        have start : c.vma = H.first + 8 := Heap.head_vma split
        rw [show c.vma - 8 = H.first by omega, rep.base]
      exact ⟨H, _, freeMergePrev_skip (by omega) (by omega) inside flag, same, rfl, rfl, split,
        rfl, rfl⟩
  | cons a before =>
      have splitA : H.chunks = before.reverse ++ a :: c :: post := by simpa using split
      have next := Heap.next_vma splitA
      have memA : a ∈ H.chunks := by simp [splitA]
      have rangeA := H.range memA
      cases isFree : a.free with
      | false =>
          have flag : s.mem (c.vma - 8) % 2 = 0 := by
            rw [show c.vma - 8 = a.vma + a.size by omega, rep.nextTag a memA,
              Chunk.tag_of_used isFree]
            omega
          refine ⟨H, _, ?_, same, rfl, rfl, ?_, rfl, rfl⟩
          · rw [absorbPrev_of_used isFree]
            exact freeMergePrev_skip (by omega) (by omega) inside flag
          · rw [absorbPrev_of_used isFree]
            exact split
      | true =>
          obtain ⟨s', run, rep', sameEnd, sameStop⟩ :=
            freeMergePrev_merge rep splitA isFree used live open_c
          refine ⟨_, s', ?_, rep', rfl, rfl, ?_, sameEnd, sameStop⟩
          · rw [prev a rfl, absorbPrev_of_free isFree]
            exact run
          · rw [absorbPrev_of_free isFree]
            rfl

/-- The chunk that `free` ends up with: `c` and its free neighbours. -/
def coalesce (before : List Chunk) (c : Chunk) (post : List Chunk) : Chunk :=
  (absorbPrev (absorbNext c post).1 before).1

omit [PageLayer π] in
/-- The coalesced chunk contains the block being freed. -/
theorem coalesce_holds (split : H.chunks = before.reverse ++ c :: post) :
    (coalesce before c post).Holds c.vma := by
  have rangeC := H.range (c := c) (by simp [split])
  have next : c.size ≤ (absorbNext c post).1.size := by
    cases post with
    | nil => exact le_rfl
    | cons d post =>
        cases isFree : d.free with
        | false => rw [absorbNext_of_used isFree]
        | true =>
            rw [absorbNext_of_free isFree]
            simp only
            omega
  have same : (absorbNext c post).1.vma = c.vma := absorbNext_vma
  unfold coalesce Chunk.Holds Chunk.stop
  cases before with
  | nil =>
      simp only [absorbPrev]
      omega
  | cons a before =>
      have splitA : H.chunks = before.reverse ++ a :: c :: post := by simpa using split
      have adjacent := Heap.next_vma splitA
      cases isFree : a.free with
      | false =>
          rw [absorbPrev_of_used isFree]
          dsimp only
          omega
      | true =>
          rw [absorbPrev_of_free isFree]
          dsimp only
          omega

/-- **The merging half of `free`.**  From any represented heap, `free` of a chunk
in use first coalesces it with its free neighbours and then releases the
result. -/
theorem free_merges (rep : Represents s H) (split : H.chunks = before.reverse ++ c :: post)
    (used : c.free = false) (terminal : post = [] → TerminalClear s H) (live : KeepsLive H keep)
    (open_c : ¬ keep c) :
    ∃ M s', (∀ atEnd : ℕ → ℕ → KM π Unit,
        freeBy atEnd c.vma s = freeReleaseBy atEnd (coalesce before c post).vma s') ∧
      Touch (Footprint H.first H.stop keep) s s' ∧
      Represents s' M ∧ M.first = H.first ∧ M.stop = H.stop ∧
      M.chunks = (absorbPrev (absorbNext c post).1 before).2.reverse ++
        coalesce before c post :: (absorbNext c post).2 ∧
      s'.ctxt.heapEnd = s.ctxt.heapEnd ∧ s'.mem (H.stop - 4) = s.mem (H.stop - 4) := by
  have memC : c ∈ H.chunks := by simp [split]
  have rangeC := H.range memC
  have bound := H.bound
  have within : ∀ b, c.vma ≤ b + 8 → b < c.vma + c.size + 8 →
      Footprint H.first H.stop keep b := fun b lower upper =>
    Footprint.of_chunk live memC open_c le_rfl lower upper
  have own : clearFlags (s.mem (c.vma - 4)) = c.size := by
    rw [rep.ownTag c memC, Chunk.clearFlags_tag rangeC.2.2.2.1 (by omega)]
  have runNext := allocGetNextDesc_runs (n := c.size) (by omega) (by omega) own
    (within _ (by omega) (by omega))
  have runPrev := allocGetPrevDesc_runs (s := s.loaded (c.vma - 4)) (v := c.vma) (by omega)
    (by omega) (within _ (by omega) (by omega))
  have same : Represents ((s.loaded (c.vma - 4)).loaded (c.vma - 8)) H :=
    rep.congr rfl (fun _ _ => ⟨rfl, rfl⟩) (fun _ _ _ => ⟨rfl, rfl⟩) rfl
  obtain ⟨N, s₁, run₁, rep₁, first₁, stop₁, chunks₁, end₁, terminal₁⟩ :=
    freeMergeNext_runs same split used terminal live open_c
  -- what may not be touched in `H` may not be touched after the first merge
  have live₁ : KeepsLive N keep := by
    intro d kept
    obtain ⟨memD, usedD⟩ := live d kept
    refine ⟨?_, usedD⟩
    rw [split] at memD
    rw [chunks₁]
    rcases List.mem_append.mp memD with left | here
    · exact List.mem_append_left _ left
    · have differ : d ≠ c := fun same => open_c (same ▸ kept)
      have right := (List.mem_cons.mp here).resolve_left differ
      exact List.mem_append_right _ (List.mem_cons_of_mem _ (mem_absorbNext right usedD))
  have open₁ : ¬ keep (absorbNext c post).1 := fun kept =>
    open_c (H.tiled.eq_of_vma_eq (live _ kept).1 memC absorbNext_vma ▸ kept)
  have prev : ∀ a ∈ before.head?, Word32.sub (Word32.sub c.vma
      (clearFlags ((s.loaded (c.vma - 4)).mem (c.vma - 8)))) 16 = a.vma - 8 := by
    intro a head
    obtain ⟨rest, rfl⟩ : ∃ rest, before = a :: rest := by
      cases before with
      | nil => simp at head
      | cons b rest =>
          simp only [List.head?_cons, Option.mem_some_iff] at head
          exact ⟨rest, by rw [head]⟩
    have splitA : H.chunks = rest.reverse ++ a :: c :: post := by simpa using split
    have next := Heap.next_vma splitA
    have memA : a ∈ H.chunks := by simp [splitA]
    have rangeA := H.range memA
    rw [loaded_mem, show c.vma - 8 = a.vma + a.size by omega, rep.nextTag a memA,
      Chunk.clearFlags_tag rangeA.2.2.2.1 (by omega),
      Word32.sub_eq (a := c.vma) (by omega) (by omega), Word32.sub_eq (by omega) (by omega)]
    omega
  obtain ⟨M, s₂, run₂, rep₂, first₂, stop₂, chunks₂, end₂, terminal₂⟩ :=
    freeMergePrev_runs rep₁ chunks₁ (absorbNext_used used) live₁ open₁ prev
  rw [first₁, stop₁] at run₂
  rw [absorbNext_vma] at run₂
  refine ⟨M, s₂, ?_, ?_, rep₂, by rw [first₂, first₁], by rw [stop₂, stop₁], chunks₂,
    by rw [end₂, end₁]; rfl, ?_⟩
  · intro atEnd
    unfold freeBy
    rw [Prog.bind_of_ok runNext.1, Prog.bind_of_ok runPrev.1, Prog.bind_of_ok run₁.1,
      Prog.bind_of_ok run₂.1]
    rfl
  · exact ((runNext.2.trans runPrev.2).trans run₁.2).trans run₂.2
  · rw [← stop₁, terminal₂, stop₁, terminal₁]
    rfl

/-! ## Releasing -/

/-- `free`, a block inside the heap: it goes to the front of the free list. -/
theorem freeRelease_inside {pre : List Chunk} (rep : Represents s H)
    (split : H.chunks = pre ++ c :: post) (used : c.free = false)
    (left : ∀ a ∈ pre.getLast?, a.free = false) (right : ∀ d ∈ post.head?, d.free = false)
    (live : KeepsLive H keep) (open_c : ¬ keep c)
    (inside : s.ctxt.heapEnd ≠ c.vma + c.size + 8) :
    ∃ s', (∀ atEnd : ℕ → ℕ → KM π Unit,
        Runs (Footprint H.first H.stop keep) s (freeReleaseBy atEnd c.vma) () s') ∧
      Represents s' (H.release split used left right) ∧
      s'.ctxt.heapEnd = s.ctxt.heapEnd ∧ s'.mem (H.stop - 4) = s.mem (H.stop - 4) := by
  have memC : c ∈ H.chunks := by simp [split]
  have rangeC := H.range memC
  have bound := H.bound
  have within : ∀ b, c.vma ≤ b + 8 → b < c.vma + c.size + 8 →
      Footprint H.first H.stop keep b := fun b lower upper =>
    Footprint.of_chunk live memC open_c le_rfl lower upper
  have own : s.mem (c.vma - 4) = c.size := by
    rw [rep.ownTag c memC, Chunk.tag_of_used used]
  have next : s.mem (c.vma + c.size) = c.size := by
    rw [rep.nextTag c memC, Chunk.tag_of_used used]
  obtain ⟨s₁, run₁, mem₁, ctxt₁⟩ := allocSetFree_runs (A := Footprint H.first H.stop keep)
    (s := s.loaded (c.vma - 4)) (v := c.vma) (n := c.size) (by omega) (by omega) (by omega)
    own next (within _ (by omega) (by omega)) (within _ (by omega) (by omega))
  simp only [loaded_mem, loaded_ctxt] at mem₁ ctxt₁
  have fresh : c.vma ∉ H.order := fun listed => by
    simp [Heap.free_of_mem_order memC listed] at used
  have links₁ : NodeList s₁.mem s₁.ctxt.freeList H.order := by
    rw [ctxt₁, mem₁]
    refine rep.links.off (fun _ listed => listed) fun b on => ?_
    have offNext : OffLists H (c.vma + c.size) := offLists_after memC le_rfl (by omega)
    have offOwn : OffLists H (c.vma - 4) := offLists_before memC (by omega) (by omega)
    rw [Function.update_of_ne fun eq => on (by rwa [eq]),
      Function.update_of_ne fun eq => on (by rwa [eq])]
  have good : GoodNodes (Footprint H.first H.stop keep) (c.vma :: H.order) := by
    intro n listed
    rcases List.mem_cons.mp listed with rfl | old
    · exact ⟨rangeC.2.2.2.2, by omega, within _ (by omega) (by omega),
        within _ (by omega) (by omega)⟩
    · exact Heap.goodNodes live le_rfl n old
  obtain ⟨s₂, run₂, links₂, frame₂, end₂⟩ := allocNodeAdd_runs links₁ good (by omega) fresh
  have offLinks : ∀ b, OffLists H b → ¬ c.Holds b → s₂.mem b = s₁.mem b := by
    intro b off out
    refine frame₂ b fun n listed => ?_
    rcases List.mem_cons.mp listed with rfl | old
    · have holds := Heap.holds_link memC
      exact ⟨fun eq => out (eq ▸ holds.1), fun eq => out (eq ▸ holds.2)⟩
    · exact off.ne_link old
  have untouched : ∀ b, OffLists H b → ¬ c.Holds b → b ≠ c.vma - 4 → b ≠ c.vma + c.size →
      s₂.mem b = s.mem b := by
    intro b off out ne_own ne_next
    rw [offLinks b off out, mem₁, Function.update_of_ne ne_next, Function.update_of_ne ne_own]
  have written : s₂.mem (c.vma - 4) = c.size + 1 ∧ s₂.mem (c.vma + c.size) = c.size + 1 := by
    constructor
    · rw [offLinks _ (offLists_before memC (by omega) (by omega))
        (Heap.not_holds_before memC memC (by omega) (by omega)), mem₁,
        Function.update_of_ne (by omega), Function.update_self]
    · rw [offLinks _ (offLists_after memC le_rfl (by omega))
        (Heap.not_holds_after memC memC le_rfl (by omega)), mem₁, Function.update_self]
  have around := Heap.before_and_behind split
  have tags : ∀ e ∈ H.chunks, e.vma + e.size + 8 ≤ c.vma ∨ c.vma + c.size + 8 ≤ e.vma →
      s₂.mem (e.vma - 4) = s.mem (e.vma - 4) ∧
        s₂.mem (e.vma + e.size) = s.mem (e.vma + e.size) := by
    intro e memE clear
    have rangeE := H.range memE
    exact ⟨untouched _ (offLists_before memE (by omega) (by omega))
        (Heap.not_holds_before memE memC (by omega) (by omega)) (by omega) (by omega),
      untouched _ (offLists_after memE le_rfl (by omega))
        (Heap.not_holds_after memE memC le_rfl (by omega)) (by omega) (by omega)⟩
  refine ⟨s₂, ?_, ?_, ?_, ?_⟩
  · intro atEnd
    have total : Word32.add (Word32.add c.vma c.size) chunkDescSize = c.vma + c.size + 8 := by
      rw [chunkDescSize, Word32.add_eq (a := c.vma) (by omega), Word32.add_eq (by omega)]
    unfold freeReleaseBy
    refine (allocGetSize_runs (n := c.size) (by omega) (by omega) ?_
      (within _ (by omega) (by omega))).bind (Runs.getEnd.bind (Runs.ite_neg ?_ ?_))
    · rw [own, clearFlags_eq (by omega)]
      omega
    · rw [total]
      exact fun eq => inside eq.symm
    · exact run₁.bind run₂
  · refine rep.change rfl (untouched _ offLists_first (Heap.not_holds_first memC) (by omega)
      (by omega)) (fun e member => ?_) links₂
    rcases List.mem_append.mp member with before | here
    · obtain ⟨memE, clear⟩ := around.1 e before
      exact Or.inl ⟨memE, tags e memE (Or.inl clear)⟩
    · rcases List.mem_cons.mp here with rfl | behind
      · exact Or.inr written
      · obtain ⟨memE, clear⟩ := around.2 e behind
        exact Or.inl ⟨memE, tags e memE (Or.inr clear)⟩
  · rw [end₂, ctxt₁]
  · exact untouched _ (offLists_of_stop_le (by omega))
      (Heap.not_holds_of_stop_le memC (by omega)) (by omega) (by omega)

omit [PageLayer π] in
/-- The coalesced chunk ends where the merge with the chunk behind does. -/
theorem coalesce_stop (split : H.chunks = before.reverse ++ c :: post) :
    (coalesce before c post).stop = (absorbNext c post).1.stop := by
  have same : (absorbNext c post).1.vma = c.vma := absorbNext_vma
  unfold coalesce Chunk.stop
  cases before with
  | nil => rfl
  | cons a before =>
      have splitA : H.chunks = before.reverse ++ a :: c :: post := by simpa using split
      have adjacent := Heap.next_vma splitA
      cases isFree : a.free with
      | false => rw [absorbPrev_of_used isFree]
      | true =>
          rw [absorbPrev_of_free isFree]
          dsimp only
          omega

omit [PageLayer π] in
/-- Where the coalesced chunk is not the last one, it ends before the region does. -/
theorem coalesce_stop_lt (split : H.chunks = before.reverse ++ c :: post)
    (more : (absorbNext c post).2 ≠ []) :
    (coalesce before c post).vma + (coalesce before c post).size + 8 < H.stop := by
  have stop := coalesce_stop split
  unfold Chunk.stop at stop
  cases post with
  | nil => exact absurd rfl more
  | cons d post =>
      have adjacent := Heap.next_vma split
      have rangeD := H.range (c := d) (by simp [split])
      cases isFree : d.free with
      | false =>
          rw [absorbNext_of_used isFree] at stop
          dsimp only at stop
          omega
      | true =>
          rw [absorbNext_of_free isFree] at stop more
          dsimp only at stop more
          obtain ⟨e, rest, rfl⟩ := List.exists_cons_of_ne_nil more
          have splitD : H.chunks = (before.reverse ++ [c]) ++ d :: e :: rest := by simp [split]
          have adjacentE := Heap.next_vma splitD
          have rangeE := H.range (c := e) (by simp [split])
          omega

/-- What may not be touched stays in use through the merges. -/
theorem KeepsLive.merged {M : Heap} (live : KeepsLive H keep)
    (split : H.chunks = before.reverse ++ c :: post) (open_c : ¬ keep c)
    (chunks : M.chunks = (absorbPrev (absorbNext c post).1 before).2.reverse ++
      coalesce before c post :: (absorbNext c post).2) : KeepsLive M keep := by
  intro d kept
  obtain ⟨memD, usedD⟩ := live d kept
  have differ : d ≠ c := fun same => open_c (same ▸ kept)
  refine ⟨?_, usedD⟩
  rw [chunks]
  rw [split] at memD
  rcases List.mem_append.mp memD with left | here
  · refine List.mem_append_left _ (List.mem_reverse.mpr ?_)
    exact mem_absorbPrev (List.mem_reverse.mp left) usedD
  · have right := (List.mem_cons.mp here).resolve_left differ
    exact List.mem_append_right _ (List.mem_cons_of_mem _ (mem_absorbNext right usedD))

/-- The coalesced chunk may be touched. -/
theorem coalesce_open (live : KeepsLive H keep) (split : H.chunks = before.reverse ++ c :: post)
    (open_c : ¬ keep c) : ¬ keep (coalesce before c post) := by
  intro kept
  have memC : c ∈ H.chunks := by simp [split]
  have same := Heap.holds_unique (live _ kept).1 memC (coalesce_holds split)
    (Heap.holds_link memC).1
  exact open_c (same ▸ kept)

/-- The chunk that `free` gives to the free list. -/
def freedChunk (before : List Chunk) (c : Chunk) (post : List Chunk) : Chunk :=
  ⟨(coalesce before c post).vma, (coalesce before c post).size, true⟩

/-- **`free` of a block that does not end up at the end of the context**, whatever
the end-of-heap branch does. -/
theorem freeBy_inside (rep : Represents s H) (split : H.chunks = before.reverse ++ c :: post)
    (used : c.free = false) (terminal : post = [] → TerminalClear s H) (live : KeepsLive H keep)
    (open_c : ¬ keep c)
    (inside : s.ctxt.heapEnd ≠ (coalesce before c post).vma + (coalesce before c post).size + 8) :
    ∃ M s', (∀ atEnd : ℕ → ℕ → KM π Unit,
        Runs (Footprint H.first H.stop keep) s (freeBy atEnd c.vma) () s') ∧
      Represents s' M ∧ M.first = H.first ∧ M.stop = H.stop ∧
      M.chunks = (absorbPrev (absorbNext c post).1 before).2.reverse ++
        freedChunk before c post :: (absorbNext c post).2 ∧
      s'.ctxt.heapEnd = s.ctxt.heapEnd ∧ s'.mem (H.stop - 4) = s.mem (H.stop - 4) := by
  obtain ⟨N, s₁, merged, touch₁, rep₁, first₁, stop₁, chunks₁, end₁, terminal₁⟩ :=
    free_merges rep split used terminal live open_c
  have around := Heap.around_of_split split
  have left := absorbPrev_last (c := (absorbNext c post).1) around.1
  have right := absorbNext_head (c := c) around.2.1
  obtain ⟨s₂, run, rep₂, end₂, terminal₂⟩ := freeRelease_inside rep₁ chunks₁
    (absorbPrev_used (absorbNext_used used)) left right (live.merged split open_c chunks₁)
    (coalesce_open live split open_c) (by rw [end₁]; exact inside)
  refine ⟨_, s₂, fun atEnd => ?_, rep₂, first₁, stop₁, rfl, end₂.trans end₁, ?_⟩
  · have run := run atEnd
    rw [first₁, stop₁] at run
    exact ⟨(merged atEnd).trans run.1, touch₁.trans run.2⟩
  · rw [← terminal₁, ← stop₁]
    exact terminal₂

/-- `free`, "Check to see if block is at the end of the heap", when it is. -/
theorem freeRelease_atEnd {pre : List Chunk} (shrink : ℕ → ℕ → KM π Unit) (rep : Represents s H)
    (split : H.chunks = pre ++ [c]) (atEnd : s.ctxt.heapEnd = H.stop) :
    freeReleaseBy shrink c.vma s = shrink H.stop c.vma (s.loaded (c.vma - 4)) := by
  have memC : c ∈ H.chunks := by simp [split]
  have rangeC := H.range memC
  have bound := H.bound
  have stop := Heap.last_stop split
  have own : clearFlags (s.mem (c.vma - 4)) = c.size := by
    rw [rep.ownTag c memC, Chunk.clearFlags_tag rangeC.2.2.2.1 (by omega)]
  have readSize := allocGetSize_runs (A := fun _ => True) (s := s) (v := c.vma) (by omega)
    (by omega) own trivial
  have total : Word32.add (Word32.add c.vma c.size) chunkDescSize = H.stop := by
    rw [chunkDescSize, Word32.add_eq (a := c.vma) (by omega), Word32.add_eq (by omega), stop]
  unfold freeReleaseBy
  rw [Prog.bind_of_ok readSize.1, Prog.bind_of_ok (m := getEnd) (a := H.stop)
    (t := s.loaded (c.vma - 4)) (by rw [← atEnd]; rfl), if_pos total]

omit [PageLayer π] in
/-- The region without its last chunk is represented by any state that agrees on
its words. -/
theorem Represents.shrink {t : Sys π} {pre : List Chunk} (rep : Represents s H)
    (split : H.chunks = pre ++ [c]) (used : c.free = false)
    (mem : ∀ a, H.first ≤ a → a < c.vma → t.mem a = s.mem a)
    (head : t.ctxt.freeList = s.ctxt.freeList) :
    Represents t (H.shrink split used) ∧ TerminalClear t (H.shrink split used) := by
  have memC : c ∈ H.chunks := by simp [split]
  have rangeC := H.range memC
  have around := (Heap.before_and_behind split).1
  constructor
  · refine ⟨?_, fun e member => ?_, fun e member => ?_, ?_⟩
    · exact (mem _ le_rfl (by omega)).trans rep.base
    · obtain ⟨memE, clear⟩ := around e member
      have rangeE := H.range memE
      rw [mem _ (by omega) (by omega), rep.ownTag e memE]
    · obtain ⟨memE, clear⟩ := around e member
      have rangeE := H.range memE
      rw [mem _ (by omega) (by omega), rep.nextTag e memE]
    · rw [head]
      refine rep.links.congr fun n listed => ?_
      obtain ⟨e, memE, isFree, rfl⟩ := Heap.mem_order.mp listed
      have differ : e ≠ c := fun same => by simp [← same, isFree] at used
      have rangeE := H.range memE
      have before : e ∈ pre := by
        rw [split] at memE
        simpa [differ] using memE
      obtain ⟨-, clear⟩ := around e before
      exact ⟨mem _ (by omega) (by omega), mem _ (by omega) (by omega)⟩
  · unfold TerminalClear
    have stop : (H.shrink split used).stop = c.vma := rfl
    rw [stop, mem _ (by omega) (by omega), rep.ownTag c memC, Chunk.tag_of_used used]
    omega

end TrashOS
