import TrashOS.Heap.Basic

/-!
# Moves of the abstract heap

The elementary changes the allocator makes to the chunk sequence.  Each is a
function from heaps to heaps, so the layout invariant is re-established where
the move is defined and nowhere else.

| move        | what `alloc.c` does                                        |
|-------------|------------------------------------------------------------|
| `mergeNext` | a used chunk absorbs the free chunk behind it              |
| `mergePrev` | a free chunk absorbs the used chunk behind it, as used     |
| `release`   | a used chunk becomes free and heads the free list          |
| `shrink`    | the last chunk, in use, leaves the region                  |
| `take`      | a free chunk becomes used                                  |
| `cut`       | a free chunk is split, its lower part used                 |
| `pad`       | a free chunk is appended                                   |
| `grow`      | a used chunk is appended                                   |
-/

namespace TrashOS
namespace Heap

variable (H : Heap) {pre post : List Chunk} {a c d : Chunk}

/-- The chunks lie in address order, a descriptor apart. -/
theorem pairwise_apart : H.chunks.Pairwise fun c d => c.vma + c.size + 8 ≤ d.vma := by
  have tiled := H.tiled
  generalize H.first + 8 = v at tiled
  generalize H.chunks = chunks at tiled ⊢
  induction chunks generalizing v with
  | nil => exact List.Pairwise.nil
  | cons c cs ih =>
      obtain ⟨start, pos, -, rest⟩ := tiled
      refine List.pairwise_cons.mpr ⟨fun d member => ?_, ih _ rest⟩
      have := (rest.inRange member).lower
      omega

theorem nodup_vma : H.chunks.Pairwise fun c d => c.vma ≠ d.vma := by
  refine H.pairwise_apart.imp_of_mem fun {c d} memC _ apart => ?_
  have := (H.tiled.inRange memC).pos
  omega

theorem nodup_chunks : H.chunks.Nodup :=
  H.nodup_vma.imp fun differ same => differ (congrArg Chunk.vma same)

theorem nodup_freeVmas : (freeVmas H.chunks).Nodup :=
  List.Pairwise.map _ (fun _ _ differ => differ) (H.nodup_vma.filter _)

theorem nodup_order : H.order.Nodup := H.members.nodup_iff.mpr H.nodup_freeVmas

variable {H}

/-- Where the chunks around a used or free chunk may be free. -/
theorem around_of_split (split : H.chunks = pre ++ c :: post) :
    pre.IsChain NotBothFree ∧ post.IsChain NotBothFree ∧
      (∀ a ∈ pre.getLast?, NotBothFree a c) ∧ ∀ d ∈ post.head?, NotBothFree c d :=
  chain_around.mp (split ▸ H.coalesced)

theorem tiled_split (split : H.chunks = pre ++ c :: post) :
    Tiled (H.first + 8) (pre ++ c :: post) H.stop := split ▸ H.tiled

theorem members_split (split : H.chunks = pre ++ c :: post) :
    H.order.Perm (freeVmas (pre ++ c :: post)) := split ▸ H.members

/-- Erasing a free chunk from the free list. -/
theorem erase_perm {vs ws : List ℕ} {v : ℕ} {order : List ℕ}
    (members : order.Perm (vs ++ v :: ws)) :
    (order.erase v).Perm (vs ++ ws) := by
  refine (members.erase v).trans ?_
  refine ((List.perm_middle (a := v)).erase v).trans ?_
  rw [List.erase_cons_head]

variable (H)

/-- A used chunk absorbs the free chunk behind it. -/
def mergeNext (split : H.chunks = pre ++ c :: d :: post) (used : c.free = false)
    (isFree : d.free = true) : Heap where
  first := H.first
  chunks := pre ++ ⟨c.vma, c.size + 8 + d.size, false⟩ :: post
  order := H.order.erase d.vma
  stop := H.stop
  aligned := H.aligned
  tiled := (tiled_split split).merge false
  bound := H.bound
  members := by
    have members := members_split split
    rw [freeVmas_append, freeVmas_cons_used used, freeVmas_cons_free isFree] at members
    rw [freeVmas_append, freeVmas_cons_used rfl]
    exact erase_perm members
  coalesced := by
    obtain ⟨left, right, -, -⟩ := around_of_split split
    exact chain_around.mpr ⟨left, (List.isChain_cons.mp right).2,
      fun a _ => notBothFree_of_right rfl a, fun e _ => notBothFree_of_left rfl e⟩

/-- A free chunk absorbs the used chunk behind it; the result is in use. -/
def mergePrev (split : H.chunks = pre ++ a :: c :: post) (isFree : a.free = true)
    (used : c.free = false) : Heap where
  first := H.first
  chunks := pre ++ ⟨a.vma, a.size + 8 + c.size, false⟩ :: post
  order := H.order.erase a.vma
  stop := H.stop
  aligned := H.aligned
  tiled := (tiled_split split).merge false
  bound := H.bound
  members := by
    have members := members_split split
    rw [freeVmas_append, freeVmas_cons_free isFree, freeVmas_cons_used used] at members
    rw [freeVmas_append, freeVmas_cons_used rfl]
    exact erase_perm members
  coalesced := by
    obtain ⟨left, right, -, -⟩ := around_of_split split
    exact chain_around.mpr ⟨left, (List.isChain_cons.mp right).2,
      fun a _ => notBothFree_of_right rfl a, fun e _ => notBothFree_of_left rfl e⟩

/-- A used chunk without free neighbours becomes free. -/
def release (split : H.chunks = pre ++ c :: post) (used : c.free = false)
    (left : ∀ a ∈ pre.getLast?, a.free = false) (right : ∀ d ∈ post.head?, d.free = false) :
    Heap where
  first := H.first
  chunks := pre ++ ⟨c.vma, c.size, true⟩ :: post
  order := c.vma :: H.order
  stop := H.stop
  aligned := H.aligned
  tiled := (tiled_split split).reflag true
  bound := H.bound
  members := by
    have members := members_split split
    rw [freeVmas_append, freeVmas_cons_used used] at members
    rw [freeVmas_append, freeVmas_cons_free rfl]
    exact (members.cons c.vma).trans List.perm_middle.symm
  coalesced := by
    obtain ⟨before, behind, -, -⟩ := around_of_split split
    exact chain_around.mpr ⟨before, behind,
      fun a member => notBothFree_of_left (left a member) _,
      fun d member => notBothFree_of_right (right d member) _⟩

/-- The last chunk, in use, leaves the region. -/
def shrink (split : H.chunks = pre ++ [c]) (used : c.free = false) : Heap where
  first := H.first
  chunks := pre
  order := H.order
  stop := c.vma
  aligned := H.aligned
  tiled := (tiled_split split).dropLast.1
  bound := by
    have := H.range (c := c) (by simp [split])
    have := H.bound
    omega
  members := by
    have members := members_split split
    rwa [freeVmas_append, freeVmas_cons_used used, freeVmas_nil, List.append_nil] at members
  coalesced := (around_of_split split).1

/-- A free chunk becomes used. -/
def take (split : H.chunks = pre ++ c :: post) (isFree : c.free = true) : Heap where
  first := H.first
  chunks := pre ++ ⟨c.vma, c.size, false⟩ :: post
  order := H.order.erase c.vma
  stop := H.stop
  aligned := H.aligned
  tiled := (tiled_split split).reflag false
  bound := H.bound
  members := by
    have members := members_split split
    rw [freeVmas_append, freeVmas_cons_free isFree] at members
    rw [freeVmas_append, freeVmas_cons_used rfl]
    exact erase_perm members
  coalesced := by
    obtain ⟨before, behind, -, -⟩ := around_of_split split
    exact chain_around.mpr ⟨before, behind, fun a _ => notBothFree_of_right rfl a,
      fun d _ => notBothFree_of_left rfl d⟩

/-- Replacing an address in the free list, in the same position. -/
def renode (old new : ℕ) (order : List ℕ) : List ℕ :=
  order.map fun v => if v = old then new else v

theorem renode_of_notMem {old : ℕ} (new : ℕ) {order : List ℕ} (notMem : old ∉ order) :
    renode old new order = order := by
  unfold renode
  rw [List.map_congr_left (g := id) fun v member => ?_, List.map_id]
  exact if_neg (show v ≠ old from fun eq => notMem (eq ▸ member))

theorem renode_append_cons {old new : ℕ} {ys zs : List ℕ} (nodup : (ys ++ old :: zs).Nodup) :
    renode old new (ys ++ old :: zs) = ys ++ new :: zs := by
  rw [List.nodup_middle, List.nodup_cons, List.mem_append, not_or] at nodup
  have left := renode_of_notMem new nodup.1.1
  have right := renode_of_notMem new nodup.1.2
  unfold renode at left right ⊢
  rw [List.map_append, List.map_cons, left, right, if_pos rfl]

/-- A free chunk is cut in two; the lower part, of `n` bytes, is used. -/
def cut (split : H.chunks = pre ++ c :: post) (isFree : c.free = true) (n : ℕ) (pos : 0 < n)
    (mult : n % 8 = 0) (room : n + 8 < c.size) : Heap where
  first := H.first
  chunks := pre ++ ⟨c.vma, n, false⟩ :: ⟨c.vma + n + 8, c.size - n - 8, true⟩ :: post
  order := renode c.vma (c.vma + n + 8) H.order
  stop := H.stop
  aligned := H.aligned
  tiled := (tiled_split split).split pos mult room false true
  bound := H.bound
  members := by
    have members := members_split split
    have nodup := members.nodup_iff.mp H.nodup_order
    rw [freeVmas_append, freeVmas_cons_free isFree] at members nodup
    rw [freeVmas_append, freeVmas_cons_used rfl, freeVmas_cons_free rfl,
      ← renode_append_cons nodup]
    exact members.map _
  coalesced := by
    obtain ⟨before, behind, left, right⟩ := around_of_split split
    refine chain_around.mpr ⟨before, List.isChain_cons.mpr ⟨fun d member => ?_, behind⟩,
      fun a _ => notBothFree_of_right rfl a, fun d _ => notBothFree_of_left rfl d⟩
    have := right d member
    simp only [NotBothFree, isFree, true_and] at this ⊢
    exact this

/-- A free chunk of `n` bytes is appended. -/
def pad (closed : H.Closed) (n : ℕ) (pos : 0 < n) (mult : n % 8 = 0)
    (fits : H.stop + n + 8 < 2 ^ 32) : Heap where
  first := H.first
  chunks := H.chunks ++ [⟨H.stop, n, true⟩]
  order := H.stop :: H.order
  stop := H.stop + n + 8
  aligned := H.aligned
  tiled := H.tiled.snoc pos mult true
  bound := fits
  members := by
    rw [freeVmas_append, freeVmas_cons_free rfl, freeVmas_nil]
    exact (H.members.cons _).trans (List.perm_append_singleton _ _).symm
  coalesced := chain_around.mpr ⟨H.coalesced, List.IsChain.nil,
    fun a member => notBothFree_of_left (closed a member) _, by simp⟩

/-- A used chunk of `n` bytes is appended. -/
def grow (n : ℕ) (pos : 0 < n) (mult : n % 8 = 0) (fits : H.stop + n + 8 < 2 ^ 32) : Heap where
  first := H.first
  chunks := H.chunks ++ [⟨H.stop, n, false⟩]
  order := H.order
  stop := H.stop + n + 8
  aligned := H.aligned
  tiled := H.tiled.snoc pos mult false
  bound := fits
  members := by
    rw [freeVmas_append, freeVmas_cons_used rfl, freeVmas_nil, List.append_nil]
    exact H.members
  coalesced := chain_around.mpr ⟨H.coalesced, List.IsChain.nil,
    fun a _ => notBothFree_of_right rfl a, by simp⟩

end Heap
end TrashOS
