import TrashOS.Heap.FirstFit

/-!
# `free` undoes `alloc`

Freeing a block right after `alloc` returned it gives the heap back, chunk by
chunk.  There are four ways a request is served, and `free` undoes each by a
different one of its own: an exact fit becomes free again and merges with nothing,
a split chunk merges with its rest, a block at the end leaves the heap, and one
behind padding takes the padding along.

The order of the free list need not come back: an exact fit returns to the front.
-/

namespace TrashOS

variable {π : Type} {s s' : Sys π} {H M : Heap} {n v : ℕ}

section AfterFree

variable {c : Chunk} {before pre post : List Chunk}

/-- Nothing merges with a block between chunks in use. -/
theorem absorbNext_of_head (used : ∀ d ∈ post.head?, d.free = false) :
    absorbNext c post = (c, post) := by
  cases post with
  | nil => rfl
  | cons d post => exact absorbNext_of_used (used d rfl)

theorem absorbPrev_of_head (used : ∀ a ∈ before.head?, a.free = false) :
    absorbPrev c before = (c, before) := by
  cases before with
  | nil => rfl
  | cons a before => exact absorbPrev_of_used (used a rfl)

/-- A block between chunks in use becomes a free chunk. -/
theorem afterFree_of_inner (left : ∀ a ∈ before.head?, a.free = false)
    (right : ∀ d ∈ post.head?, d.free = false) (more : post ≠ []) :
    afterFree before c post = before.reverse ++ ⟨c.vma, c.size, true⟩ :: post := by
  obtain ⟨d, behind, rfl⟩ := List.exists_cons_of_ne_nil more
  unfold afterFree freedChunk coalesce
  rw [absorbNext_of_head right, absorbPrev_of_head left]

/-- A block before a free chunk becomes one free chunk with it. -/
theorem afterFree_of_rest {d : Chunk} (left : ∀ a ∈ before.head?, a.free = false)
    (isFree : d.free = true) (more : post ≠ []) :
    afterFree before c (d :: post) =
      before.reverse ++ ⟨c.vma, c.size + 8 + d.size, true⟩ :: post := by
  obtain ⟨e, behind, rfl⟩ := List.exists_cons_of_ne_nil more
  unfold afterFree freedChunk coalesce
  rw [absorbNext_of_free isFree, absorbPrev_of_head left]

/-- A block at the end behind a chunk in use leaves the heap. -/
theorem afterFree_of_last (left : ∀ a ∈ before.head?, a.free = false) :
    afterFree before c [] = before.reverse := by
  unfold afterFree absorbNext
  rw [absorbPrev_of_head left]

/-- A block at the end behind a free chunk leaves the heap with it. -/
theorem afterFree_of_padding {a : Chunk} (isFree : a.free = true) :
    afterFree (a :: before) c [] = before.reverse := by
  unfold afterFree absorbNext
  rw [absorbPrev_of_free isFree]

/-- The chunks around a free chunk of a closed heap are in use, and there is one
behind. -/
theorem Heap.around_free (split : H.chunks = pre ++ c :: post) (isFree : c.free = true)
    (closed : H.Closed) : (∀ a ∈ pre.reverse.head?, a.free = false) ∧
      (∀ d ∈ post.head?, d.free = false) ∧ post ≠ [] := by
  obtain ⟨-, -, left, right⟩ := Heap.around_of_split split
  refine ⟨fun a last => ?_, fun d next => ?_, ?_⟩
  · rw [List.head?_reverse] at last
    have := left a last
    simpa [NotBothFree, isFree] using this
  · have := right d next
    simpa [NotBothFree, isFree] using this
  · rintro rfl
    have used := closed c (by simp [split])
    rw [isFree] at used
    cases used

/-- A block from the free list. -/
theorem Found.afterFree (found : Found H n v M) (closed : H.Closed) :
    ∃ before post, M.chunks = before.reverse ++ ⟨v, n, false⟩ :: post ∧
      afterFree before ⟨v, n, false⟩ post = H.chunks := by
  cases found with
  | @take pre post c split isFree fit =>
      obtain ⟨left, right, more⟩ := Heap.around_free split isFree closed
      refine ⟨pre.reverse, post, ?_, ?_⟩
      · rw [List.reverse_reverse, ← fit]
        rfl
      · rw [afterFree_of_inner left right more, List.reverse_reverse, split, ← fit, ← isFree]
  | @cut pre post c split isFree pos mult room =>
      obtain ⟨left, right, more⟩ := Heap.around_free split isFree closed
      refine ⟨pre.reverse, ⟨c.vma + n + 8, c.size - n - 8, true⟩ :: post, ?_, ?_⟩
      · rw [List.reverse_reverse]
        rfl
      · have whole : n + 8 + (c.size - n - 8) = c.size := by omega
        rw [afterFree_of_rest left rfl more, List.reverse_reverse, split, whole, ← isFree]

/-- A block behind the old end, or behind the padding there. -/
theorem Padded.afterFree {target : ℕ} {P : Heap} (padded : Padded H target P) (closed : H.Closed)
    (pos : 0 < n) (mult : n % 8 = 0) (fits : P.stop + n + 8 < 2 ^ 32) :
    ∃ before, (P.grow n pos mult fits).chunks = before.reverse ++ [⟨P.stop, n, false⟩] ∧
      afterFree before ⟨P.stop, n, false⟩ [] = H.chunks := by
  cases padded with
  | aligned eq =>
      refine ⟨H.chunks.reverse, by rw [List.reverse_reverse]; rfl, ?_⟩
      rw [afterFree_of_last, List.reverse_reverse]
      intro a last
      rw [List.head?_reverse] at last
      exact closed a last
  | gap _ m posM multM fitsM eq =>
      refine ⟨⟨H.stop, m, true⟩ :: H.chunks.reverse, ?_, ?_⟩
      · rw [List.reverse_cons, List.reverse_reverse]
        rfl
      · rw [afterFree_of_padding rfl, List.reverse_reverse]

end AfterFree

/-! ## Undoing -/

variable [PageLayer π] {pageFree : ℕ → KM π Unit}

end TrashOS
