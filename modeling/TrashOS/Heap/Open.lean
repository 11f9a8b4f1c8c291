import TrashOS.Heap.Context

/-!
# Freeing in an open heap

While `alloc` maps the pages of a new block, `ctxt->end` already lies behind the
region the chunks tile: the heap is open (`OpenHeap`).  A page supplier may free
blocks of the same heap then.  `OpenHeap.free` shows that such a call never takes the
end-of-heap branch of `free`, wherever the block lies, and that the heap stays
open: the block and its free neighbours become one free chunk, possibly the last
one, and the descriptor behind the region is never written.
-/

namespace TrashOS

variable {π : Type}

/-- The bytes of `d` lie in one free chunk. -/
def Covered (H : Heap) (d : Chunk) : Prop :=
  ∃ e ∈ H.chunks, e.free = true ∧ e.vma ≤ d.vma ∧ d.stop ≤ e.stop

/-- `Q` is `P` without the block `c`, whose bytes are free now. -/
structure Freed (P : Heap) (c : Chunk) (Q : Heap) : Prop where
  first : Q.first = P.first
  stop : Q.stop = P.stop
  live : (c :: liveOf Q.chunks).Perm (liveOf P.chunks)
  covered : Covered Q c
  covers : ∀ d, Covered P d → Covered Q d

section Absorb

variable {c d : Chunk} {before post : List Chunk} {P Q : Heap}

/-- A chunk behind is kept or absorbed. -/
theorem absorbNext_cases (split : P.chunks = before.reverse ++ c :: post) (member : d ∈ post) :
    d ∈ (absorbNext c post).2 ∨ d.stop = (absorbNext c post).1.stop := by
  cases post with
  | nil => simp at member
  | cons e post =>
      have adjacent := Heap.next_vma split
      cases isFree : e.free with
      | false =>
          rw [absorbNext_of_used isFree]
          exact Or.inl member
      | true =>
          rw [absorbNext_of_free isFree]
          rcases List.mem_cons.mp member with rfl | later
          · right
            unfold Chunk.stop
            dsimp only
            omega
          · exact Or.inl later

/-- A chunk before is kept or absorbed. -/
theorem absorbPrev_cases {x : Chunk} (member : d ∈ before) :
    d ∈ (absorbPrev x before).2 ∨ d.vma = (absorbPrev x before).1.vma := by
  cases before with
  | nil => simp at member
  | cons a before =>
      cases isFree : a.free with
      | false =>
          rw [absorbPrev_of_used isFree]
          exact Or.inl member
      | true =>
          rw [absorbPrev_of_free isFree]
          rcases List.mem_cons.mp member with rfl | earlier
          · exact Or.inr rfl
          · exact Or.inl earlier

/-- The block and the free chunks around it are covered by the freed chunk. -/
theorem freed_of_chunks (split : P.chunks = before.reverse ++ c :: post)
    (used : c.free = false) (first : Q.first = P.first) (stop : Q.stop = P.stop)
    (chunks : Q.chunks = (absorbPrev (absorbNext c post).1 before).2.reverse ++
      freedChunk before c post :: (absorbNext c post).2) : Freed P c Q := by
  have holds := coalesce_holds split
  have ending := coalesce_stop split
  have memC : c ∈ P.chunks := by simp [split]
  have around := Heap.before_and_behind split
  have memFreed : freedChunk before c post ∈ Q.chunks := by simp [chunks]
  have behindC : c.stop ≤ (absorbNext c post).1.stop := by
    have same : (absorbNext c post).1.vma = c.vma := absorbNext_vma
    cases post with
    | nil => exact le_rfl
    | cons e post =>
        cases isFree : e.free with
        | false => rw [absorbNext_of_used isFree]
        | true =>
            rw [absorbNext_of_free isFree]
            unfold Chunk.stop
            dsimp only
            omega
  have coveredC : Covered Q c := by
    refine ⟨_, memFreed, rfl, holds.1, ?_⟩
    change c.stop ≤ (coalesce before c post).stop
    rw [ending]
    exact behindC
  have chunkCovered : ∀ d ∈ P.chunks, d.free = true → Covered Q d := by
    intro d member isFree
    rw [split] at member
    rcases List.mem_append.mp member with left | here
    · have before' := around.1 d left
      rcases absorbPrev_cases (x := (absorbNext c post).1) (List.mem_reverse.mp left) with
        kept | absorbed
      · exact ⟨d, by simp [chunks, kept], isFree, le_rfl, le_rfl⟩
      · refine ⟨_, memFreed, rfl, absorbed.ge, ?_⟩
        change d.stop ≤ (coalesce before c post).stop
        rw [ending]
        unfold Chunk.stop at behindC ⊢
        omega
    · rcases List.mem_cons.mp here with rfl | right
      · exact coveredC
      · have behind := around.2 d right
        rcases absorbNext_cases split right with kept | absorbed
        · exact ⟨d, by simp [chunks, kept], isFree, le_rfl, le_rfl⟩
        · refine ⟨_, memFreed, rfl, ?_, ?_⟩
          · exact holds.1.trans (by omega)
          · change d.stop ≤ (coalesce before c post).stop
            rw [ending]
            exact absorbed.le
  refine ⟨first, stop, ?_, coveredC, ?_⟩
  · rw [chunks, split, liveOf_append, liveOf_append, liveOf_cons_free rfl, liveOf_cons_used used,
      liveOf_reverse, liveOf_reverse, liveOf_absorbPrev, liveOf_absorbNext]
    exact List.perm_middle.symm
  · rintro d ⟨e, memE, freeE, lower, upper⟩
    obtain ⟨f, memF, freeF, lower', upper'⟩ := chunkCovered e memE freeE
    exact ⟨f, memF, freeF, lower'.trans lower, upper.trans upper'⟩

/-- If the last chunk is in use after the merge, it was there before. -/
theorem closed_of_chunks (split : P.chunks = before.reverse ++ c :: post)
    (chunks : Q.chunks = (absorbPrev (absorbNext c post).1 before).2.reverse ++
      freedChunk before c post :: (absorbNext c post).2) (closed : Q.Closed) : P.Closed := by
  intro e last
  cases rest : (absorbNext c post).2 with
  | nil =>
      have freed := closed (freedChunk before c post) (by simp [chunks, rest])
      cases freed
  | cons d behind =>
      apply closed e
      have same := absorbNext_getLast (c := c) (p := post) (by simp [rest])
      rw [rest] at same
      rw [chunks, rest]
      rw [split] at last
      cases post with
      | nil => simp [absorbNext] at rest
      | cons f post =>
          simp only [List.getLast?_append, List.getLast?_cons_cons] at last same ⊢
          rw [same]
          exact last

end Absorb

/-! ## Freeing in an open heap -/

variable [PageLayer π] {s s' : Sys π} {P : Heap}

/-- **`free` in an open heap** does the same whatever its end-of-heap branch is,
and leaves the heap open. -/
theorem OpenHeap.free (openP : OpenHeap s P) {c : Chunk} (liveC : P.Live c) :
    ∃ Q s', (∀ atEnd : ℕ → ℕ → KM π Unit,
        Runs (Footprint P.first P.stop fun d => P.Live d ∧ d ≠ c) s (freeBy atEnd c.vma) () s') ∧
      OpenHeap s' Q ∧ Freed P c Q ∧ s'.ctxt.heapEnd = s.ctxt.heapEnd := by
  obtain ⟨memC, used⟩ := liveC
  obtain ⟨pre, post, split⟩ := List.append_of_mem memC
  obtain ⟨before, rfl⟩ : ∃ before : List Chunk, pre = before.reverse :=
    ⟨pre.reverse, by rw [List.reverse_reverse]⟩
  have live : KeepsLive P fun d => P.Live d ∧ d ≠ c := fun _ kept => kept.1
  have nonempty : P.chunks ≠ [] := by simp [split]
  -- the block is the last chunk only if that is in use
  have terminal : post = [] → TerminalClear s P := by
    rintro rfl
    refine openP.terminal (fun e last => ?_) nonempty
    rw [split] at last
    simp only [List.getLast?_append, List.getLast?_singleton, Option.some_or,
      Option.mem_some_iff] at last
    rw [← last]
    exact used
  -- the coalesced chunk lies in the region, and the context ends behind that
  have inside : s.ctxt.heapEnd ≠
      (coalesce before c post).vma + (coalesce before c post).size + 8 := by
    obtain ⟨M, -, -, -, -, -, stopM, chunksM, -⟩ :=
      free_merges openP.rep split used terminal live (fun kept => kept.2 rfl)
    have range := M.range (c := coalesce before c post) (by simp [chunksM])
    have ahead := openP.ahead
    omega
  obtain ⟨Q, s', run, rep, first, stop, chunks, ending, word⟩ :=
    freeBy_inside openP.rep split used terminal live (fun kept => kept.2 rfl) inside
  have touch := (run fun _ _ => pure ()).2
  refine ⟨Q, s', run, ⟨rep, ?_, ?_, fun closed _ => ?_⟩,
    freed_of_chunks split used first stop chunks, ending⟩
  · rw [first, touch.start]
    exact openP.start
  · rw [stop, ending]
    exact openP.ahead
  · rw [TerminalClear, stop, word]
    exact openP.terminal (closed_of_chunks split chunks closed) nonempty

end TrashOS
