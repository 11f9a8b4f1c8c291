import TrashOS.Heap.Free

/-!
# The free list search of `alloc`

`allocSearch` walks the free list and takes the first chunk that fits exactly or
is large enough to be split.  `allocSearch_runs` says what it returns on a
represented heap: nothing, if no free chunk is suitable, or the first suitable
chunk of the list, `Found` by one of the two moves `take` and `cut`.  The walk ends
because the free list does.
-/

namespace TrashOS

variable {π : Type} [PageLayer π] {s : Sys π} {H : Heap} {keep : Chunk → Prop} {c : Chunk}
  {pre post : List Chunk}

/-! ## Exact fit -/

/-- `alloc`, "We found a memory chunk of perfect size". -/
theorem take_runs (rep : Represents s H) (split : H.chunks = pre ++ c :: post)
    (isFree : c.free = true) (live : KeepsLive H keep) :
    ∃ s', Runs (Footprint H.first H.stop keep) s (do
        allocNodeUnlink c.vma
        allocClearFree c.vma
        pure (some c.vma)) (some c.vma) s' ∧
      Represents s' (H.take split isFree) ∧
      s'.ctxt.heapEnd = s.ctxt.heapEnd ∧ s'.mem (H.stop - 4) = s.mem (H.stop - 4) := by
  have memC : c ∈ H.chunks := by simp [split]
  have rangeC := H.range memC
  have bound := H.bound
  have within : ∀ b, c.vma ≤ b + 8 → b < c.vma + c.size + 8 →
      Footprint H.first H.stop keep b := fun b lower upper =>
    Footprint.of_chunk live memC (live.not_free isFree) le_rfl lower upper
  obtain ⟨s₁, run₁, links, frame, end₁⟩ :=
    rep.unlink_runs (Heap.goodNodes live le_rfl) memC isFree
  have own₁ : s₁.mem (c.vma - 4) = c.size + 1 := by
    rw [frame _ (offLists_before memC (by omega) (by omega)), rep.ownTag c memC,
      Chunk.tag_of_free isFree]
  have next₁ : s₁.mem (c.vma + c.size) = c.size + 1 := by
    rw [frame _ (offLists_after memC le_rfl (by omega)), rep.nextTag c memC,
      Chunk.tag_of_free isFree]
  obtain ⟨s₂, run₂, mem₂, ctxt₂⟩ := allocClearFree_runs (A := Footprint H.first H.stop keep)
    (by omega) (by omega) (by omega) own₁ next₁ (within _ (by omega) (by omega))
    (within _ (by omega) (by omega))
  have untouched : ∀ b, OffLists H b → b ≠ c.vma - 4 → b ≠ c.vma + c.size →
      s₂.mem b = s.mem b := by
    intro b off ne_own ne_next
    rw [mem₂, Function.update_of_ne ne_next, Function.update_of_ne ne_own, frame b off]
  refine ⟨s₂, run₁.bind (run₂.bind (Runs.pure _)), ?_, by rw [ctxt₂, end₁],
    untouched _ (offLists_of_stop_le (by omega)) (by omega) (by omega)⟩
  have around := Heap.before_and_behind split
  have tags : ∀ e ∈ H.chunks, e.vma + e.size + 8 ≤ c.vma ∨ c.vma + c.size + 8 ≤ e.vma →
      s₂.mem (e.vma - 4) = s.mem (e.vma - 4) ∧
        s₂.mem (e.vma + e.size) = s.mem (e.vma + e.size) := by
    intro e memE clear
    have rangeE := H.range memE
    exact ⟨untouched _ (offLists_before memE (by omega) (by omega)) (by omega) (by omega),
      untouched _ (offLists_after memE le_rfl (by omega)) (by omega) (by omega)⟩
  refine rep.change rfl (untouched _ offLists_first (by omega) (by omega))
    (fun e member => ?_) ?_
  · rcases List.mem_append.mp member with before | here
    · obtain ⟨memE, clear⟩ := around.1 e before
      exact Or.inl ⟨memE, tags e memE (Or.inl clear)⟩
    · rcases List.mem_cons.mp here with rfl | behind
      · right
        simp only [mem₂, Chunk.tag_used, Function.update_self, and_true]
        rw [Function.update_of_ne (by omega), Function.update_self]
      · obtain ⟨memE, clear⟩ := around.2 e behind
        exact Or.inl ⟨memE, tags e memE (Or.inr clear)⟩
  · rw [ctxt₂, mem₂]
    refine links.off (H := H) (fun n listed => List.mem_of_mem_erase listed) fun b on => ?_
    have offNext : OffLists H (c.vma + c.size) := offLists_after memC le_rfl (by omega)
    have offOwn : OffLists H (c.vma - 4) := offLists_before memC (by omega) (by omega)
    rw [Function.update_of_ne fun eq => on (by rwa [eq]),
      Function.update_of_ne fun eq => on (by rwa [eq])]

/-! ## Splitting -/

/-- `alloc`, "We found a memory chunk that can be split": the stores up to the
copy of the list node. -/
theorem allocSplit_stores {A : ℕ → Prop} {v n size : ℕ} (low : 8 ≤ v) (pos : 0 < n)
    (mult : n % 8 = 0)
    (multSize : size % 8 = 0) (room : n + 8 < size) (fits : v + size + 8 < 2 ^ 32)
    (own : s.mem (v - 4) = size + 1) (inside : ∀ b, v ≤ b + 8 → b < v + size + 8 → A b) :
    ∃ s₁, (∀ s₂, Runs A s₁ (do
        let prev ← load (v + n + 8)
        relinkNext prev (v + n + 8)
        let next ← load (v + n + 8 + 4)
        relinkPrev next (v + n + 8)) () s₂ → Runs A s (allocSplit n v) () s₂) ∧
      s₁.ctxt = s.ctxt ∧
      s₁.mem (v - 4) = n ∧ s₁.mem (v + n) = n ∧
      s₁.mem (v + n + 4) = size - n - 8 + 1 ∧ s₁.mem (v + size) = size - n - 8 + 1 ∧
      s₁.mem (v + n + 8) = s.mem v ∧ s₁.mem (v + n + 8 + 4) = s.mem (v + 4) ∧
      ∀ b, (b ≠ v - 4 ∧ ¬ (v ≤ b ∧ b < v + size) ∧ b ≠ v + size) → s₁.mem b = s.mem b := by
  have rest : Word32.sub (Word32.sub (size + 1) n) chunkDescSize = size - n - 8 + 1 := by
    rw [chunkDescSize, Word32.sub_eq (a := size + 1) (by omega) (by omega),
      Word32.sub_eq (by omega) (by omega)]
    omega
  have flag : (size - n - 8 + 1) ||| kmChunkFree = size - n - 8 + 1 :=
    Word32.or_one_of_odd (by omega)
  have newChunk : Word32.add v n = v + n := Word32.add_eq (by omega)
  have newNode : Word32.add (v + n) chunkDescSize = v + n + 8 := by
    rw [chunkDescSize, Word32.add_eq (by omega)]
  have mask : clearFlags (size + 1) = size := by
    rw [clearFlags_eq (by omega)]
    omega
  refine ⟨((((((((((((s.stored (v + n) n).loaded (v - 4)).stored (v + n + 4)
    (size - n - 8 + 1)).loaded (v + n + 4)).stored (v + n + 4) (size - n - 8 + 1)).loaded
    (v - 4)).loaded (v + n + 4)).stored (v + size) (size - n - 8 + 1)).stored (v - 4) n).loaded
    v).loaded (v + 4)).stored (v + n + 8) (s.mem v)).stored (v + n + 8 + 4) (s.mem (v + 4)),
    ?_, rfl, ?_⟩
  · intro s₂ tail
    unfold allocSplit
    simp only [newChunk, newNode, sizePrevField, prevField,
      sizeField_allocGetDesc low (show v < 2 ^ 32 by omega),
      sizeField_eq (show v + n + 4 < 2 ^ 32 by omega),
      nextField_eq (show v + 4 < 2 ^ 32 by omega),
      nextField_eq (show v + n + 8 + 4 < 2 ^ 32 by omega)]
    refine (Runs.store (inside _ (by omega) (by omega))).bind ?_
    refine (Runs.load_eq (v := size + 1) (inside _ (by omega) (by omega)) ?_).bind ?_
    · rw [stored_mem, Function.update_of_ne (by omega), own]
    rw [rest]
    refine (Runs.store (inside _ (by omega) (by omega))).bind ?_
    refine (Runs.load_eq (v := size - n - 8 + 1) (inside _ (by omega) (by omega)) ?_).bind ?_
    · rw [stored_mem, Function.update_self]
    rw [flag]
    refine (Runs.store (inside _ (by omega) (by omega))).bind ?_
    refine (allocGetNextDesc_runs (n := size) low (by omega) ?_
      (inside _ (by omega) (by omega))).bind ?_
    · simp only [loaded_mem, stored_mem]
      rw [Function.update_of_ne (by omega), Function.update_of_ne (by omega),
        Function.update_of_ne (by omega), own, mask]
    refine (Runs.load_eq (v := size - n - 8 + 1) (inside _ (by omega) (by omega)) ?_).bind ?_
    · rw [loaded_mem, stored_mem, Function.update_self]
    rw [flag]
    refine (Runs.store (inside _ (by omega) (by omega))).bind ?_
    refine (Runs.store (inside _ (by omega) (by omega))).bind ?_
    refine (Runs.load_eq (v := s.mem v) (inside _ (by omega) (by omega)) ?_).bind ?_
    · simp only [loaded_mem, stored_mem]
      rw [Function.update_of_ne (by omega), Function.update_of_ne (by omega),
        Function.update_of_ne (by omega), Function.update_of_ne (by omega),
        Function.update_of_ne (by omega)]
    refine (Runs.load_eq (v := s.mem (v + 4)) (inside _ (by omega) (by omega)) ?_).bind ?_
    · simp only [loaded_mem, stored_mem]
      rw [Function.update_of_ne (by omega), Function.update_of_ne (by omega),
        Function.update_of_ne (by omega), Function.update_of_ne (by omega),
        Function.update_of_ne (by omega)]
    refine (Runs.store (inside _ (by omega) (by omega))).bind ?_
    exact (Runs.store (inside _ (by omega) (by omega))).bind tail
  · simp only [loaded_mem, stored_mem, Function.update_apply]
    refine ⟨?_, ?_, ?_, ?_, ?_, ?_, fun b out => ?_⟩ <;> split_ifs <;> first | rfl | omega

/-- `alloc`, "We found a memory chunk that can be split". -/
theorem allocSplit_runs {n : ℕ} (rep : Represents s H) (split : H.chunks = pre ++ c :: post)
    (isFree : c.free = true) (pos : 0 < n) (mult : n % 8 = 0) (room : n + 8 < c.size)
    (live : KeepsLive H keep) :
    ∃ s', Runs (Footprint H.first H.stop keep) s (allocSplit n c.vma) () s' ∧
      Represents s' (H.cut split isFree n pos mult room) ∧
      s'.ctxt.heapEnd = s.ctxt.heapEnd ∧ s'.mem (H.stop - 4) = s.mem (H.stop - 4) := by
  have memC : c ∈ H.chunks := by simp [split]
  have rangeC := H.range memC
  have bound := H.bound
  have within : ∀ b, c.vma ≤ b + 8 → b < c.vma + c.size + 8 →
      Footprint H.first H.stop keep b := fun b lower upper =>
    Footprint.of_chunk live memC (live.not_free isFree) le_rfl lower upper
  have own : s.mem (c.vma - 4) = c.size + 1 := by
    rw [rep.ownTag c memC, Chunk.tag_of_free isFree]
  obtain ⟨s₁, whole, ctxt₁, own₁, next₁, restOwn₁, restNext₁, prev₁, link₁, frame₁⟩ :=
    allocSplit_stores (by omega) pos mult rangeC.2.2.2.1 room (by omega) own within
  -- the two links of the old node name other nodes of the list
  obtain ⟨ys, zs, order⟩ := List.append_of_mem (Heap.vma_mem_order memC isFree)
  have links := rep.links
  rw [order] at links
  have good : GoodNodes (Footprint H.first H.stop keep) H.order := Heap.goodNodes live le_rfl
  have listed : ∀ m ∈ ys ++ zs, m ∈ H.order := by
    intro m member
    rw [order]
    rcases List.mem_append.mp member with h | h <;> simp [h]
  have outside : ∀ m ∈ ys ++ zs, m % 8 = 0 ∧ (m + 16 ≤ c.vma ∨ c.vma + c.size + 8 ≤ m) := by
    intro m member
    obtain ⟨e, memE, -, rfl⟩ := Heap.mem_order.mp (listed m member)
    have differ : c ≠ e := fun same => links.others_ne _ member (by rw [same])
    have rangeE := H.range memE
    rcases H.apart memC memE differ with h | h <;> omega
  have prevMem : s.mem c.vma ≠ 0 → s.mem c.vma ∈ ys ++ zs := links.prev_mem_others
  have nextMem : s.mem (c.vma + 4) ≠ 0 → s.mem (c.vma + 4) ∈ ys ++ zs := links.next_mem_others
  have prevHigh : s.mem c.vma + 4 < 2 ^ 32 := by
    by_cases null : s.mem c.vma = 0
    · omega
    · have := (good _ (listed _ (prevMem null))).2.1
      omega
  obtain ⟨s₂, run₂, mem₂, head₂, end₂⟩ :=
    relinkNext_runs (A := Footprint H.first H.stop keep) (s := s₁.loaded (c.vma + n + 8))
      (v := c.vma + n + 8) prevHigh
      (fun nonnull => (good _ (listed _ (prevMem nonnull))).2.2.2)
  obtain ⟨s₃, run₃, mem₃, ctxt₃⟩ :=
    relinkPrev_runs (A := Footprint H.first H.stop keep) (s := s₂.loaded (c.vma + n + 8 + 4))
      (n := s.mem (c.vma + 4)) (v := c.vma + n + 8)
      (fun nonnull => (good _ (listed _ (nextMem nonnull))).2.2.1)
  simp only [loaded_mem, loaded_ctxt] at mem₂ head₂ end₂ mem₃ ctxt₃
  have run : Runs (Footprint H.first H.stop keep) s (allocSplit n c.vma) () s₃ := by
    refine whole s₃ ?_
    refine (Runs.load_eq (within _ (by omega) (by omega)) prev₁).bind (run₂.bind ?_)
    refine (Runs.load_eq (within _ (by omega) (by omega)) ?_).bind run₃
    rw [mem₂, if_neg fun h => ?_, link₁]
    have := outside _ (prevMem h.1)
    omega
  -- the other words keep their value unless they are links of other nodes
  have tail : ∀ b, OffLists H b ∨ c.Holds b → s₃.mem b = s₁.mem b := by
    intro b off
    have notLink : ∀ m ∈ ys ++ zs, b ≠ m ∧ b ≠ m + 4 := by
      intro m member
      rcases off with off | ⟨lower, upper⟩
      · exact off.ne_link (listed m member)
      · have := outside m member
        unfold Chunk.stop at upper
        omega
    rw [mem₃, if_neg fun h => (notLink _ (nextMem h.1)).1 h.2, mem₂,
      if_neg fun h => (notLink _ (prevMem h.1)).2 h.2]
  have untouched : ∀ b, OffLists H b → ¬ c.Holds b → b ≠ c.vma - 4 → b ≠ c.vma + c.size →
      s₃.mem b = s.mem b := fun b off out ne_own ne_next =>
    (tail b (Or.inl off)).trans (frame₁ b ⟨ne_own, out, ne_next⟩)
  have holds : ∀ b, c.vma ≤ b → b < c.vma + c.size → c.Holds b := fun b lower upper =>
    ⟨lower, upper⟩
  refine ⟨s₃, run, ?_, by rw [ctxt₃, end₂, ctxt₁],
    untouched _ (offLists_of_stop_le (by omega))
      (Heap.not_holds_of_stop_le memC (by omega)) (by omega) (by omega)⟩
  have around := Heap.before_and_behind split
  have tags : ∀ e ∈ H.chunks, e.vma + e.size + 8 ≤ c.vma ∨ c.vma + c.size + 8 ≤ e.vma →
      s₃.mem (e.vma - 4) = s.mem (e.vma - 4) ∧
        s₃.mem (e.vma + e.size) = s.mem (e.vma + e.size) := by
    intro e memE clear
    have rangeE := H.range memE
    exact ⟨untouched _ (offLists_before memE (by omega) (by omega))
        (Heap.not_holds_before memE memC (by omega) (by omega)) (by omega) (by omega),
      untouched _ (offLists_after memE le_rfl (by omega))
        (Heap.not_holds_after memE memC le_rfl (by omega)) (by omega) (by omega)⟩
  refine rep.change rfl (untouched _ offLists_first (Heap.not_holds_first memC) (by omega)
    (by omega)) (fun e member => ?_) ?_
  · rcases List.mem_append.mp member with before | here
    · obtain ⟨memE, clear⟩ := around.1 e before
      exact Or.inl ⟨memE, tags e memE (Or.inl clear)⟩
    · rcases List.mem_cons.mp here with rfl | later
      · right
        simp only [Chunk.tag_used]
        exact ⟨(tail _ (Or.inl (offLists_before memC (by omega) (by omega)))).trans own₁,
          (tail _ (Or.inr (holds _ (by omega) (by omega)))).trans next₁⟩
      · rcases List.mem_cons.mp later with rfl | behind
        · right
          simp only [Chunk.tag_free]
          refine ⟨?_, ?_⟩
          · rw [show c.vma + n + 8 - 4 = c.vma + n + 4 by omega,
              tail _ (Or.inr (holds _ (by omega) (by omega))), restOwn₁]
          · rw [show c.vma + n + 8 + (c.size - n - 8) = c.vma + c.size by omega,
              tail _ (Or.inl (offLists_after memC le_rfl (by omega))), restNext₁]
        · obtain ⟨memE, clear⟩ := around.2 e behind
          exact Or.inl ⟨memE, tags e memE (Or.inr clear)⟩
  · have nodup := H.nodup_order
    rw [order] at nodup
    have order' : (H.cut split isFree n pos mult room).order = ys ++ (c.vma + n + 8) :: zs := by
      rw [← Heap.renode_append_cons nodup, ← order]
      rfl
    have same₁ : ∀ m ∈ ys ++ zs, s₁.mem m = s.mem m ∧ s₁.mem (m + 4) = s.mem (m + 4) := by
      intro m member
      have := outside m member
      exact ⟨frame₁ m (by omega), frame₁ (m + 4) (by omega)⟩
    have memC' : c.vma ∈ ys ++ c.vma :: zs := by simp
    have others : ∀ m ∈ ys ++ zs, m ∈ ys ++ c.vma :: zs := fun m member =>
      order ▸ listed m member
    have head₃ : s₃.ctxt.freeList
        = if s.ctxt.freeList = c.vma then c.vma + n + 8 else s.ctxt.freeList := by
      rw [ctxt₃, head₂, ctxt₁]
      exact if_congr (links.prev_eq_zero_iff memC') rfl rfl
    rw [order', head₃]
    refine links.replace (show c.vma + n + 8 ≠ 0 by omega) ?_ ?_ (fun y member => ?_)
      fun y member => ?_
    · rw [tail _ (Or.inr (holds _ (by omega) (by omega))), prev₁]
    · rw [tail _ (Or.inr (holds _ (by omega) (by omega))), link₁]
    · -- the `prev` word of `y` is rewritten exactly when `y` follows the chunk
      have away := outside y member
      rw [mem₃, mem₂, if_neg (c := s.mem c.vma ≠ 0 ∧ y = s.mem c.vma + 4) fun h => ?_,
        (same₁ y member).1]
      · refine if_congr ?_ rfl rfl
        rw [links.prev_eq_iff (others y member) memC']
        exact ⟨fun h => h.2.symm, fun h => ⟨h ▸ links.ne_zero (others y member), h.symm⟩⟩
      · have := outside _ (prevMem h.1)
        omega
    · -- the `next` word of `y` is rewritten exactly when `y` precedes the chunk
      have away := outside y member
      rw [mem₃, mem₂, if_neg (c := s.mem (c.vma + 4) ≠ 0 ∧ y + 4 = s.mem (c.vma + 4))
        fun h => ?_, (same₁ y member).2]
      · refine if_congr ?_ rfl rfl
        rw [← links.prev_eq_iff memC' (others y member)]
        exact ⟨fun h => by omega, fun h => ⟨h ▸ links.ne_zero (others y member), by omega⟩⟩
      · have := outside _ (nextMem h.1)
        omega

/-! ## The search -/

/-- The heap `M` after the search of `H` found a block of `n` bytes at `v`. -/
inductive Found (H : Heap) (n : ℕ) : ℕ → Heap → Prop
  /-- A chunk of perfect size. -/
  | take {pre post : List Chunk} {c : Chunk} (split : H.chunks = pre ++ c :: post)
      (isFree : c.free = true) (fit : c.size = n) : Found H n c.vma (H.take split isFree)
  /-- A chunk that was split. -/
  | cut {pre post : List Chunk} {c : Chunk} (split : H.chunks = pre ++ c :: post)
      (isFree : c.free = true) (pos : 0 < n) (mult : n % 8 = 0) (room : n + 8 < c.size) :
      Found H n c.vma (H.cut split isFree n pos mult room)

/-- No chunk at an address of `nodes` can serve a request of `n` bytes. -/
def Unsuitable (H : Heap) (n : ℕ) (nodes : List ℕ) : Prop :=
  ∀ c ∈ H.chunks, c.vma ∈ nodes → c.size ≠ n ∧ c.size ≤ n + 8

/-- **The search of the free list.**  The induction follows the list that is
still to be walked. -/
theorem allocSearch_runs (ys : List ℕ) {n : ℕ} (pos : 0 < n) (mult : n % 8 = 0)
    (fits : n + 8 < 2 ^ 32)
    (live : KeepsLive H keep) {zs : List ℕ} (order : H.order = ys ++ zs)
    (rep : Represents s H) {fuel start : ℕ} (enough : zs.length < fuel)
    (list : PointerList.Singly 0 (fun x => s.mem (x + 4)) start zs) :
    ∃ r M s', Runs (Footprint H.first H.stop keep) s (allocSearch n fuel start) r s' ∧
      Represents s' M ∧ s'.ctxt.heapEnd = s.ctxt.heapEnd ∧
      s'.mem (H.stop - 4) = s.mem (H.stop - 4) ∧
      ((r = none ∧ M = H ∧ Unsuitable H n zs) ∨
        ∃ v us ws, r = some v ∧ Found H n v M ∧ zs = us ++ v :: ws ∧ Unsuitable H n us) := by
  induction zs generalizing s ys fuel start with
  | nil =>
      obtain ⟨fuel, rfl⟩ : ∃ k, fuel = k + 1 := ⟨fuel - 1, by simp at enough; omega⟩
      refine ⟨none, H, s, ?_, rep, rfl, rfl, Or.inl ⟨rfl, rfl, by simp [Unsuitable]⟩⟩
      exact Runs.ite_pos list (Runs.pure none)
  | cons v zs ih =>
      obtain ⟨fuel, rfl⟩ : ∃ k, fuel = k + 1 := ⟨fuel - 1, by simp at enough; omega⟩
      obtain ⟨rfl, nonnull, rest⟩ := list
      have listed : start ∈ H.order := by simp [order]
      obtain ⟨c, memC, isFree, rfl⟩ := Heap.mem_order.mp listed
      obtain ⟨pre, post, split⟩ := List.append_of_mem memC
      have rangeC := H.range memC
      have bound := H.bound
      have within : ∀ b, c.vma ≤ b + 8 → b < c.vma + c.size + 8 →
          Footprint H.first H.stop keep b := fun b lower upper =>
        Footprint.of_chunk live memC (live.not_free isFree) le_rfl lower upper
      have own : clearFlags (s.mem (c.vma - 4)) = c.size := by
        rw [rep.ownTag c memC, Chunk.clearFlags_tag rangeC.2.2.2.1 (by omega)]
      have readSize := allocGetSize_runs (s := s) (by omega) (by omega) own
        (within _ (by omega) (by omega))
      have rep₁ : Represents (s.loaded (c.vma - 4)) H :=
        rep.congr rfl (fun _ _ => ⟨rfl, rfl⟩) (fun _ _ _ => ⟨rfl, rfl⟩) rfl
      have begin : ∀ {r s'},
          Runs (Footprint H.first H.stop keep) (s.loaded (c.vma - 4))
            (if c.size = n then do
              allocNodeUnlink c.vma
              allocClearFree c.vma
              pure (some c.vma)
            else if c.size > Word32.add n chunkDescSize then do
              allocSplit n c.vma
              pure (some c.vma)
            else do
              let next ← load (nextField c.vma)
              allocSearch n fuel next) r s' →
          Runs (Footprint H.first H.stop keep) s (allocSearch n (fuel + 1) c.vma) r s' :=
        fun tail => Runs.ite_neg nonnull (readSize.bind tail)
      have limit : Word32.add n chunkDescSize = n + 8 := Word32.add_eq fits
      by_cases fit : c.size = n
      · obtain ⟨s', run, rep', sameEnd, sameStop⟩ := take_runs rep₁ split isFree live
        exact ⟨_, _, s', begin (Runs.ite_pos fit run), rep', sameEnd, sameStop,
          Or.inr ⟨_, [], zs, rfl, Found.take split isFree fit, rfl, by simp [Unsuitable]⟩⟩
      · by_cases room : n + 8 < c.size
        · obtain ⟨s', run, rep', sameEnd, sameStop⟩ :=
            allocSplit_runs rep₁ split isFree pos mult room live
          refine ⟨_, _, s', begin (Runs.ite_neg fit (Runs.ite_pos ?_
            (run.bind (Runs.pure _)))), rep', sameEnd, sameStop,
            Or.inr ⟨_, [], zs, rfl, Found.cut split isFree pos mult room, rfl,
              by simp [Unsuitable]⟩⟩
          rw [limit]
          exact room
        · obtain ⟨r, M, s', run, rep', sameEnd, sameStop, outcome⟩ :=
            ih (ys ++ [c.vma]) (s := (s.loaded (c.vma - 4)).loaded (c.vma + 4))
              (by simp [order])
              (rep.congr rfl (fun _ _ => ⟨rfl, rfl⟩) (fun _ _ _ => ⟨rfl, rfl⟩) rfl)
              (show zs.length < fuel by simp at enough; omega) rest
          refine ⟨r, M, s', begin (Runs.ite_neg fit (Runs.ite_neg ?_ ?_)), rep', sameEnd,
            sameStop, ?_⟩
          · rw [limit]
            exact room
          · rw [nextField_eq (by omega)]
            exact (Runs.load (within _ (by omega) (by omega))).bind run
          · have skip : ∀ {nodes}, Unsuitable H n nodes → Unsuitable H n (c.vma :: nodes) := by
              intro nodes unsuitable d memD inNodes
              rcases List.mem_cons.mp inNodes with same | later
              · rw [H.tiled.eq_of_vma_eq memD memC same]
                exact ⟨fit, by omega⟩
              · exact unsuitable d memD later
            rcases outcome with ⟨none, same, unsuitable⟩ | ⟨v, us, ws, some, found, parts, before⟩
            · exact Or.inl ⟨none, same, skip unsuitable⟩
            · exact Or.inr ⟨v, c.vma :: us, ws, some, found, by rw [parts, List.cons_append],
                skip before⟩

namespace Found

variable {M : Heap} {n v : ℕ}

theorem first (found : Found H n v M) : M.first = H.first := by
  cases found <;> rfl

theorem stop (found : Found H n v M) : M.stop = H.stop := by
  cases found <;> rfl

end Found

end TrashOS
