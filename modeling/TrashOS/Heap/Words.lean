import TrashOS.Heap.Moves
import TrashOS.Heap.Ops

/-!
# Which word is what

The words of a heap region fall into three kinds: descriptor words, which belong
to no chunk, links, which belong to free chunks, and the contents of chunks in
use.  The lemmas here keep the kinds apart; they are what makes an update of one
kind invisible to the others.
-/

namespace TrashOS

variable {π : Type}

namespace Heap

variable {H : Heap} {c d : Chunk} {a : ℕ}

/-- Two chunks of a heap are separated by a descriptor. -/
theorem apart (H : Heap) (memC : c ∈ H.chunks) (memD : d ∈ H.chunks) (differ : c ≠ d) :
    c.vma + c.size + 8 ≤ d.vma ∨ d.vma + d.size + 8 ≤ c.vma :=
  H.tiled.apart memC memD differ

/-- The descriptor before a chunk belongs to no chunk. -/
theorem not_holds_before (memC : c ∈ H.chunks) (memD : d ∈ H.chunks)
    (lower : c.vma ≤ a + 8) (upper : a < c.vma) : ¬ d.Holds a := by
  rintro ⟨from_d, to_d⟩
  unfold Chunk.stop at to_d
  by_cases same : c = d
  · subst same
    omega
  · rcases H.apart memC memD same with h | h <;> omega

/-- The descriptor after a chunk belongs to no chunk. -/
theorem not_holds_after (memC : c ∈ H.chunks) (memD : d ∈ H.chunks)
    (lower : c.vma + c.size ≤ a) (upper : a < c.vma + c.size + 8) : ¬ d.Holds a := by
  rintro ⟨from_d, to_d⟩
  unfold Chunk.stop at to_d
  by_cases same : c = d
  · subst same
    omega
  · rcases H.apart memC memD same with h | h <;> omega

theorem not_holds_first (memD : d ∈ H.chunks) : ¬ d.Holds H.first := by
  rintro ⟨from_d, -⟩
  have := H.range memD
  omega

/-- Nothing behind the last chunk belongs to a chunk. -/
theorem not_holds_of_stop_le (memD : d ∈ H.chunks) (lower : H.stop ≤ a + 8) :
    ¬ d.Holds a := by
  rintro ⟨-, to_d⟩
  unfold Chunk.stop at to_d
  have := H.range memD
  omega

/-- The two link words of a chunk are its own. -/
theorem holds_link (memD : d ∈ H.chunks) : d.Holds d.vma ∧ d.Holds (d.vma + 4) := by
  have := H.range memD
  unfold Chunk.Holds Chunk.stop
  omega

/-- No two chunks share a word. -/
theorem holds_unique (memC : c ∈ H.chunks) (memD : d ∈ H.chunks) (inC : c.Holds a)
    (inD : d.Holds a) : c = d := by
  by_contra differ
  unfold Chunk.Holds Chunk.stop at inC inD
  rcases H.apart memC memD differ with h | h <;> omega

/-- The chunk at an address of the free list is free. -/
theorem free_of_mem_order (memD : d ∈ H.chunks) (listed : d.vma ∈ H.order) :
    d.free = true := by
  obtain ⟨e, memE, isFree, same⟩ := mem_order.mp listed
  rwa [H.tiled.eq_of_vma_eq memD memE same.symm]

theorem vma_mem_order (memD : d ∈ H.chunks) (isFree : d.free = true) : d.vma ∈ H.order :=
  mem_order.mpr ⟨d, memD, isFree, rfl⟩

theorem length_order_lt (H : Heap) : H.order.length < 2 ^ 32 := by
  have count := H.members.length_eq
  have filtered : (freeVmas H.chunks).length ≤ H.chunks.length := by
    unfold freeVmas
    rw [List.length_map]
    exact List.length_filter_le _ _
  have := H.tiled.length_le
  have := H.bound
  omega

end Heap

/-! ## Footprints -/

section Footprints

variable {H : Heap} {keep : Chunk → Prop} {c : Chunk} {a : ℕ}

/-- The chunks an operation on `H` must leave alone: chunks in use. -/
def KeepsLive (H : Heap) (keep : Chunk → Prop) : Prop := ∀ d, keep d → H.Live d

/-- A chunk together with its two descriptors lies in the footprint, unless it
is to be left alone. -/
theorem Footprint.of_chunk {hi : ℕ} (live : KeepsLive H keep) (memC : c ∈ H.chunks)
    (open_c : ¬ keep c) (le : H.stop ≤ hi) (lower : c.vma ≤ a + 8)
    (upper : a < c.vma + c.size + 8) : Footprint H.first hi keep a := by
  have := H.range memC
  refine ⟨by omega, by omega, fun d kept => ?_⟩
  have differ : c ≠ d := fun same => open_c (same ▸ kept)
  rintro ⟨from_d, to_d⟩
  unfold Chunk.stop at to_d
  rcases H.apart memC (live d kept).1 differ with h | h <;> omega

/-- The words behind the last chunk lie in the footprint. -/
theorem Footprint.of_stop_le {hi : ℕ} (live : KeepsLive H keep) (lower : H.stop ≤ a + 8)
    (upper : a < hi) : Footprint H.first hi keep a := by
  have := H.first_le_stop
  exact ⟨by omega, upper, fun d kept => Heap.not_holds_of_stop_le (live d kept).1 lower⟩

theorem KeepsLive.not_free (live : KeepsLive H keep) (isFree : c.free = true) : ¬ keep c := by
  intro kept
  simp [(live c kept).2] at isFree

/-- The free list can be updated within the footprint. -/
theorem Heap.goodNodes {hi : ℕ} (live : KeepsLive H keep) (le : H.stop ≤ hi) :
    GoodNodes (Footprint H.first hi keep) H.order := by
  intro n member
  obtain ⟨d, memD, isFree, rfl⟩ := Heap.mem_order.mp member
  have range := H.range memD
  have bound := H.bound
  have within : ∀ b, d.vma ≤ b → b < d.vma + 8 → Footprint H.first hi keep b :=
    fun b lower upper => Footprint.of_chunk live memD (live.not_free isFree) le (by omega)
      (by omega)
  exact ⟨range.2.2.2.2, by omega, within _ le_rfl (by omega), within _ (by omega) (by omega)⟩

end Footprints

/-! ## Updates seen from the heap -/

/-- A word outside the free chunks of `H`. -/
def OffLists (H : Heap) (a : ℕ) : Prop := ∀ d ∈ H.chunks, d.free = true → ¬ d.Holds a

section Updates

variable {H : Heap} {s : Sys π} {c : Chunk} {a : ℕ}

theorem offLists_before (memC : c ∈ H.chunks) (lower : c.vma ≤ a + 8) (upper : a < c.vma) :
    OffLists H a := fun _ memD _ => Heap.not_holds_before memC memD lower upper

theorem offLists_after (memC : c ∈ H.chunks) (lower : c.vma + c.size ≤ a)
    (upper : a < c.vma + c.size + 8) : OffLists H a :=
  fun _ memD _ => Heap.not_holds_after memC memD lower upper

theorem offLists_first : OffLists H H.first := fun _ memD _ => Heap.not_holds_first memD

theorem offLists_of_stop_le (lower : H.stop ≤ a + 8) : OffLists H a :=
  fun _ memD _ => Heap.not_holds_of_stop_le memD lower

/-- A word that is not in a free chunk is not a link. -/
theorem OffLists.ne_link (off : OffLists H a) {n : ℕ} (listed : n ∈ H.order) :
    a ≠ n ∧ a ≠ n + 4 := by
  obtain ⟨d, memD, isFree, rfl⟩ := Heap.mem_order.mp listed
  have links := Heap.holds_link memD
  exact ⟨fun same => off d memD isFree (same ▸ links.1),
    fun same => off d memD isFree (same ▸ links.2)⟩

/-- A list of free chunks does not see updates outside the free chunks. -/
theorem NodeList.off {mem mem' : ℕ → ℕ} {head : ℕ} {nodes : List ℕ}
    (list : NodeList mem head nodes) (sub : ∀ n ∈ nodes, n ∈ H.order)
    (same : ∀ a, ¬ OffLists H a → mem' a = mem a) : NodeList mem' head nodes := by
  refine list.congr fun n listed => ?_
  constructor
  · exact same n fun off => (off.ne_link (sub n listed)).1 rfl
  · exact same (n + 4) fun off => (off.ne_link (sub n listed)).2 rfl

end Updates

variable [PageLayer π] {A : ℕ → Prop} {s : Sys π} {H : Heap} {d : Chunk}

/-- `alloc_node_unlink` on a free chunk of a heap: links of other free chunks
change, nothing else. -/
theorem Represents.unlink_runs (rep : Represents s H) (good : GoodNodes A H.order)
    (memD : d ∈ H.chunks) (isFree : d.free = true) :
    ∃ s', Runs A s (allocNodeUnlink d.vma) () s' ∧
      NodeList s'.mem s'.ctxt.freeList (H.order.erase d.vma) ∧
      (∀ a, OffLists H a → s'.mem a = s.mem a) ∧
      s'.ctxt.heapEnd = s.ctxt.heapEnd := by
  obtain ⟨ys, zs, split⟩ := List.append_of_mem (Heap.vma_mem_order memD isFree)
  have links := rep.links
  rw [split] at links good
  obtain ⟨s', run, list, frame, sameEnd⟩ := allocNodeUnlink_runs links good
  have notMem : d.vma ∉ ys := by
    have nodup := H.nodup_order
    rw [split, List.nodup_middle, List.nodup_cons] at nodup
    exact fun member => nodup.1 (List.mem_append_left _ member)
  refine ⟨s', run, ?_, fun a off => frame a fun n member => ?_, sameEnd⟩
  · rwa [split, List.erase_append_right _ notMem, List.erase_cons_head]
  · refine off.ne_link (split ▸ ?_)
    rcases List.mem_append.mp member with h | h <;> simp [h]

end TrashOS
