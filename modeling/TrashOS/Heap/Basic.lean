import TrashOS.Lib.PointerList
import TrashOS.Machine
import Mathlib.Data.List.Chain

/-!
# The abstract heap

What the words of a heap context mean.  A `Heap` is the sequence of its chunks
together with the order of the free list, and it carries the layout invariant as
fields: the chunks tile the region from the first descriptor to the end, the
free list holds the free chunks, each once, and no two adjacent chunks are free.

`Represents s H` connects a heap to memory: the boundary tags (each size is
stored twice, in the chunk's own descriptor and in the `size_prev` of the next
one, with the same flag) and the links of the free list.
-/

namespace TrashOS

/-- A chunk of heap memory: its first byte, its size and its `FREE` flag.  Its
descriptor is the 8 bytes before `vma`; the next descriptor follows the chunk. -/
structure Chunk where
  vma : ℕ
  size : ℕ
  free : Bool
  deriving DecidableEq, Repr

namespace Chunk

/-- The first byte after the chunk, where the next descriptor is. -/
def stop (c : Chunk) : ℕ := c.vma + c.size

/-- The word both size tags of the chunk hold. -/
def tag (c : Chunk) : ℕ := if c.free then c.size + 1 else c.size

/-- The bytes of the chunk. -/
def Holds (c : Chunk) (a : ℕ) : Prop := c.vma ≤ a ∧ a < c.stop

@[simp] theorem tag_free (v n : ℕ) : (Chunk.mk v n true).tag = n + 1 := rfl

@[simp] theorem tag_used (v n : ℕ) : (Chunk.mk v n false).tag = n := rfl

theorem tag_of_used {c : Chunk} (used : c.free = false) : c.tag = c.size := by
  simp [tag, used]

theorem tag_of_free {c : Chunk} (isFree : c.free = true) : c.tag = c.size + 1 := by
  simp [tag, isFree]

end Chunk

/-! ## Tilings -/

/-- The chunks tile the region: the first one starts at `v`, each next one
starts after an 8-byte descriptor, and after the last descriptor comes `e`. -/
def Tiled : ℕ → List Chunk → ℕ → Prop
  | v, [], e => v = e
  | v, c :: cs, e => c.vma = v ∧ 0 < c.size ∧ c.size % 8 = 0 ∧ Tiled (v + c.size + 8) cs e

@[simp] theorem tiled_nil {v e : ℕ} : Tiled v [] e ↔ v = e := Iff.rfl

@[simp] theorem tiled_cons {v e : ℕ} {c : Chunk} {cs : List Chunk} :
    Tiled v (c :: cs) e ↔
      c.vma = v ∧ 0 < c.size ∧ c.size % 8 = 0 ∧ Tiled (v + c.size + 8) cs e := Iff.rfl

section Tiled

variable {v e : ℕ} {c d : Chunk} {cs pre post : List Chunk}

theorem tiled_append {xs ys : List Chunk} :
    Tiled v (xs ++ ys) e ↔ ∃ m, Tiled v xs m ∧ Tiled m ys e := by
  induction xs generalizing v with
  | nil => simp
  | cons c xs ih =>
      simp only [List.cons_append, tiled_cons, ih]
      constructor
      · rintro ⟨start, pos, mult, m, left, right⟩
        exact ⟨m, ⟨start, pos, mult, left⟩, right⟩
      · rintro ⟨m, ⟨start, pos, mult, left⟩, right⟩
        exact ⟨start, pos, mult, m, left, right⟩

theorem Tiled.le (tiled : Tiled v cs e) : v ≤ e := by
  induction cs generalizing v with
  | nil => exact tiled.le
  | cons c cs ih =>
      have := ih tiled.2.2.2
      omega

/-- Both ends of a tiling have the same alignment. -/
theorem Tiled.mod_eight (tiled : Tiled v cs e) : e % 8 = v % 8 := by
  induction cs generalizing v with
  | nil => rw [tiled_nil.mp tiled]
  | cons c cs ih =>
      obtain ⟨-, -, mult, rest⟩ := tiled
      have := ih rest
      omega

/-- Where a chunk of a tiling lies. -/
structure InRange (v e : ℕ) (c : Chunk) : Prop where
  lower : v ≤ c.vma
  upper : c.vma + c.size + 8 ≤ e
  pos : 0 < c.size
  mult : c.size % 8 = 0
  aligned : c.vma % 8 = v % 8

theorem Tiled.inRange (tiled : Tiled v cs e) (member : c ∈ cs) : InRange v e c := by
  induction cs generalizing v with
  | nil => simp at member
  | cons d cs ih =>
      obtain ⟨start, pos, mult, rest⟩ := tiled
      rcases List.mem_cons.mp member with rfl | later
      · have := rest.le
        exact ⟨by omega, by omega, pos, mult, by omega⟩
      · obtain ⟨lower, upper, pos', mult', aligned⟩ := ih rest later
        exact ⟨by omega, upper, pos', mult', by omega⟩

/-- Chunks before and after a given one keep clear of it and its
descriptors. -/
theorem Tiled.around (tiled : Tiled v (pre ++ c :: post) e) :
    (∀ d ∈ pre, d.vma + d.size + 8 ≤ c.vma) ∧ ∀ d ∈ post, c.vma + c.size + 8 ≤ d.vma := by
  obtain ⟨m, left, start, pos, mult, right⟩ := tiled_append.mp tiled
  refine ⟨fun d member => ?_, fun d member => ?_⟩
  · have := (left.inRange member).upper
    omega
  · have := (right.inRange member).lower
    omega

/-- Two different chunks are separated by a descriptor. -/
theorem Tiled.apart (tiled : Tiled v cs e) (memC : c ∈ cs) (memD : d ∈ cs) (differ : c ≠ d) :
    c.vma + c.size + 8 ≤ d.vma ∨ d.vma + d.size + 8 ≤ c.vma := by
  obtain ⟨pre, post, rfl⟩ := List.append_of_mem memC
  have around := tiled.around
  rcases List.mem_append.mp memD with before | here
  · exact Or.inr (around.1 d before)
  · rcases List.mem_cons.mp here with same | after
    · exact absurd same.symm differ
    · exact Or.inl (around.2 d after)

/-- A chunk is determined by its address. -/
theorem Tiled.eq_of_vma_eq (tiled : Tiled v cs e) (memC : c ∈ cs) (memD : d ∈ cs)
    (same : c.vma = d.vma) : c = d := by
  by_contra differ
  have := (tiled.inRange memC).pos
  have := (tiled.inRange memD).pos
  rcases tiled.apart memC memD differ with h | h <;> omega

/-- A tiling whose number of chunks is bounded by its length. -/
theorem Tiled.length_le (tiled : Tiled v cs e) : v + cs.length ≤ e := by
  induction cs generalizing v with
  | nil => simpa using tiled.le
  | cons c cs ih =>
      have := ih tiled.2.2.2
      simp only [List.length_cons]
      omega

/-- Two neighbours and the descriptor between them make one chunk. -/
theorem Tiled.merge (tiled : Tiled v (pre ++ c :: d :: post) e) (free : Bool) :
    Tiled v (pre ++ ⟨c.vma, c.size + 8 + d.size, free⟩ :: post) e := by
  obtain ⟨m, left, start, pos, mult, startD, posD, multD, right⟩ := tiled_append.mp tiled
  refine tiled_append.mpr ⟨m, left, start, by simp only; omega, by simp only; omega, ?_⟩
  simpa only [show m + c.size + 8 + d.size + 8 = m + (c.size + 8 + d.size) + 8 by omega]
    using right

/-- Changing a flag does not move anything. -/
theorem Tiled.reflag (tiled : Tiled v (pre ++ c :: post) e) (free : Bool) :
    Tiled v (pre ++ ⟨c.vma, c.size, free⟩ :: post) e := by
  obtain ⟨m, left, right⟩ := tiled_append.mp tiled
  exact tiled_append.mpr ⟨m, left, right⟩

/-- A chunk can be cut in two around a new descriptor. -/
theorem Tiled.split (tiled : Tiled v (pre ++ c :: post) e) {n : ℕ} (pos : 0 < n)
    (mult : n % 8 = 0) (room : n + 8 < c.size) (free free' : Bool) :
    Tiled v (pre ++ ⟨c.vma, n, free⟩ :: ⟨c.vma + n + 8, c.size - n - 8, free'⟩ :: post) e := by
  obtain ⟨m, left, start, -, multC, right⟩ := tiled_append.mp tiled
  refine tiled_append.mpr ⟨m, left, start, pos, mult, by simp only; omega, by simp only; omega,
    by simp only; omega, ?_⟩
  simp only at start ⊢
  rwa [show m + n + 8 + (c.size - n - 8) + 8 = m + c.size + 8 by omega]

/-- A new chunk behind the last descriptor. -/
theorem Tiled.snoc (tiled : Tiled v cs e) {n : ℕ} (pos : 0 < n) (mult : n % 8 = 0)
    (free : Bool) : Tiled v (cs ++ [⟨e, n, free⟩]) (e + n + 8) :=
  tiled_append.mpr ⟨e, tiled, rfl, pos, mult, rfl⟩

/-- Dropping the last chunk ends the region at its first byte. -/
theorem Tiled.dropLast (tiled : Tiled v (cs ++ [c]) e) :
    Tiled v cs c.vma ∧ e = c.vma + c.size + 8 := by
  obtain ⟨m, left, start, pos, mult, right⟩ := tiled_append.mp tiled
  subst start
  exact ⟨left, right.symm⟩

end Tiled

/-! ## Heaps -/

/-- The addresses of the free chunks, in address order. -/
def freeVmas (chunks : List Chunk) : List ℕ := (chunks.filter Chunk.free).map Chunk.vma

@[simp] theorem freeVmas_nil : freeVmas [] = [] := rfl

@[simp] theorem freeVmas_append (xs ys : List Chunk) :
    freeVmas (xs ++ ys) = freeVmas xs ++ freeVmas ys := by
  simp [freeVmas]

theorem freeVmas_cons_free {c : Chunk} (isFree : c.free = true) (cs : List Chunk) :
    freeVmas (c :: cs) = c.vma :: freeVmas cs := by
  simp [freeVmas, isFree]

theorem freeVmas_cons_used {c : Chunk} (used : c.free = false) (cs : List Chunk) :
    freeVmas (c :: cs) = freeVmas cs := by
  simp [freeVmas, used]

theorem mem_freeVmas {chunks : List Chunk} {v : ℕ} :
    v ∈ freeVmas chunks ↔ ∃ c ∈ chunks, c.free = true ∧ c.vma = v := by
  simp [freeVmas, and_assoc]

/-- Two neighbours are not both free. -/
def NotBothFree (c d : Chunk) : Prop := ¬ (c.free = true ∧ d.free = true)

theorem notBothFree_of_left {c : Chunk} (used : c.free = false) (d : Chunk) :
    NotBothFree c d := by
  simp [NotBothFree, used]

theorem notBothFree_of_right {d : Chunk} (used : d.free = false) (c : Chunk) :
    NotBothFree c d := by
  simp [NotBothFree, used]

/-- A chain seen from one of its chunks. -/
theorem chain_around {pre post : List Chunk} {c : Chunk} :
    (pre ++ c :: post).IsChain NotBothFree ↔
      pre.IsChain NotBothFree ∧ post.IsChain NotBothFree ∧
        (∀ a ∈ pre.getLast?, NotBothFree a c) ∧ ∀ d ∈ post.head?, NotBothFree c d := by
  rw [List.isChain_append, List.isChain_cons]
  simp only [List.head?_cons, Option.mem_some_iff, forall_eq']
  tauto

/-- **An abstract heap.**  `stop` is the end of the region the chunks tile: the
byte after the descriptor of the chunk that would come next. -/
structure Heap where
  first : ℕ
  chunks : List Chunk
  order : List ℕ
  stop : ℕ
  /-- The first descriptor is 8-byte aligned. -/
  aligned : first % 8 = 0
  /-- The chunks tile the region behind the first descriptor. -/
  tiled : Tiled (first + 8) chunks stop
  /-- The region lies in the address space. -/
  bound : stop < 2 ^ 32
  /-- The free list holds the free chunks, each once. -/
  members : order.Perm (freeVmas chunks)
  /-- No two adjacent chunks are free. -/
  coalesced : chunks.IsChain NotBothFree

namespace Heap

/-- The last chunk is in use. -/
def Closed (H : Heap) : Prop := ∀ c ∈ H.chunks.getLast?, c.free = false

/-- The chunks in use. -/
def Live (H : Heap) (c : Chunk) : Prop := c ∈ H.chunks ∧ c.free = false

theorem mem_order {H : Heap} {v : ℕ} :
    v ∈ H.order ↔ ∃ c ∈ H.chunks, c.free = true ∧ c.vma = v := by
  rw [H.members.mem_iff, mem_freeVmas]

/-- Where the chunks of a heap lie. -/
theorem range (H : Heap) {c : Chunk} (member : c ∈ H.chunks) :
    H.first + 8 ≤ c.vma ∧ c.vma + c.size + 8 ≤ H.stop ∧ 0 < c.size ∧ c.size % 8 = 0 ∧
      c.vma % 8 = 0 := by
  obtain ⟨lower, upper, pos, mult, aligned⟩ := H.tiled.inRange member
  have := H.aligned
  exact ⟨lower, upper, pos, mult, by omega⟩

theorem first_le_stop (H : Heap) : H.first + 8 ≤ H.stop := H.tiled.le

theorem stop_aligned (H : Heap) : H.stop % 8 = 0 := by
  have := H.tiled.mod_eight
  have := H.aligned
  omega

end Heap

/-! ## Heaps in memory -/

/-- The free list in memory: links `prev` at `n` and `next` at `n + 4`, `NULL`
at both ends. -/
def NodeList (mem : ℕ → ℕ) (head : ℕ) (nodes : List ℕ) : Prop :=
  PointerList.Doubly 0 mem (fun n => mem (n + 4)) 0 head nodes

variable {π : Type}

/-- **The words of `s` represent the heap `H`.** -/
structure Represents (s : Sys π) (H : Heap) : Prop where
  /-- The first chunk has no chunk before it. -/
  base : s.mem H.first = 0
  /-- A chunk's own size field. -/
  ownTag : ∀ c ∈ H.chunks, s.mem (c.vma - 4) = c.tag
  /-- The `size_prev` field of the descriptor after a chunk. -/
  nextTag : ∀ c ∈ H.chunks, s.mem (c.vma + c.size) = c.tag
  /-- The doubly linked free list. -/
  links : NodeList s.mem s.ctxt.freeList H.order

/-- The size field of the terminal descriptor has no `FREE` flag. -/
def TerminalClear (s : Sys π) (H : Heap) : Prop := s.mem (H.stop - 4) % 2 = 0

namespace Represents

variable {s s' : Sys π} {H : Heap}

/-- A heap is represented by any memory that agrees on its tags and links. -/
theorem congr (rep : Represents s H) (base : s'.mem H.first = s.mem H.first)
    (tags : ∀ c ∈ H.chunks, s'.mem (c.vma - 4) = s.mem (c.vma - 4) ∧
      s'.mem (c.vma + c.size) = s.mem (c.vma + c.size))
    (nodes : ∀ c ∈ H.chunks, c.free = true →
      s'.mem c.vma = s.mem c.vma ∧ s'.mem (c.vma + 4) = s.mem (c.vma + 4))
    (head : s'.ctxt.freeList = s.ctxt.freeList) : Represents s' H where
  base := base.trans rep.base
  ownTag c member := (tags c member).1.trans (rep.ownTag c member)
  nextTag c member := (tags c member).2.trans (rep.nextTag c member)
  links := by
    rw [head]
    refine rep.links.congr (fun n member => ?_) fun n member => ?_
    · obtain ⟨c, memC, isFree, rfl⟩ := Heap.mem_order.mp member
      exact (nodes c memC isFree).1
    · obtain ⟨c, memC, isFree, rfl⟩ := Heap.mem_order.mp member
      exact (nodes c memC isFree).2

end Represents

end TrashOS
