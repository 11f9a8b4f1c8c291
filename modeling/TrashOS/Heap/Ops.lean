import TrashOS.Heap.Touch

/-!
# The accessors and list operations of the allocator

Forward specifications of the small inline functions of `alloc.c`: what each
returns, which words it touches, and what it leaves in memory.  The list
operations are stated against the abstract free list; their proofs hand the
pointer surgery to `PointerList`.
-/

namespace TrashOS

variable {π : Type} [PageLayer π] {A : ℕ → Prop} {s : Sys π}

/-! ## Addresses and tags -/

theorem allocGetDesc_eq {v : ℕ} (low : 8 ≤ v) (high : v < 2 ^ 32) : allocGetDesc v = v - 8 :=
  Word32.sub_eq low high

theorem sizeField_allocGetDesc {v : ℕ} (low : 8 ≤ v) (high : v < 2 ^ 32) :
    sizeField (allocGetDesc v) = v - 4 := by
  rw [allocGetDesc_eq low high, sizeField, Word32.add_eq (by omega)]
  omega

theorem sizePrevField_allocGetDesc {v : ℕ} (low : 8 ≤ v) (high : v < 2 ^ 32) :
    sizePrevField (allocGetDesc v) = v - 8 := by
  rw [sizePrevField, allocGetDesc_eq low high]

theorem sizeField_eq {d : ℕ} (high : d + 4 < 2 ^ 32) : sizeField d = d + 4 :=
  Word32.add_eq high

theorem nextField_eq {n : ℕ} (high : n + 4 < 2 ^ 32) : nextField n = n + 4 :=
  Word32.add_eq high

theorem allocGetNode_eq {d : ℕ} (high : d + 8 < 2 ^ 32) : allocGetNode d = d + 8 :=
  Word32.add_eq high

theorem clearFlags_eq {x : ℕ} (word : x < 2 ^ 32) : clearFlags x = x / 8 * 8 :=
  Word32.and_not_low (by decide : 3 ≤ 32) word

/-- Clearing the `FREE` bit. -/
theorem and_not_free {x : ℕ} (word : x < 2 ^ 32) : x &&& Word32.not kmChunkFree = x / 2 * 2 :=
  Word32.and_not_low (by decide : 1 ≤ 32) word

/-- Testing the `FREE` bit. -/
theorem and_free (x : ℕ) : x &&& kmChunkFree = x % 2 :=
  Word32.and_low x 1

theorem Chunk.tag_lt {c : Chunk} (mult : c.size % 8 = 0) (small : c.size < 2 ^ 32) :
    c.tag < 2 ^ 32 := by
  unfold tag
  split <;> omega

theorem Chunk.clearFlags_tag {c : Chunk} (mult : c.size % 8 = 0) (small : c.size < 2 ^ 32) :
    clearFlags c.tag = c.size := by
  rw [clearFlags_eq (c.tag_lt mult small)]
  unfold tag
  split <;> omega

/-! ## Accessors -/

section Accessors

variable {v n : ℕ}

theorem allocGetSize_runs (low : 8 ≤ v) (high : v < 2 ^ 32)
    (size : clearFlags (s.mem (v - 4)) = n) (inside : A (v - 4)) :
    Runs A s (allocGetSize v) n (s.loaded (v - 4)) := by
  unfold allocGetSize
  rw [sizeField_allocGetDesc low high]
  exact (Runs.load inside).bind (size ▸ Runs.pure _)

theorem allocGetNextDesc_runs (low : 8 ≤ v) (fits : v + n < 2 ^ 32)
    (size : clearFlags (s.mem (v - 4)) = n) (inside : A (v - 4)) :
    Runs A s (allocGetNextDesc v) (v + n) (s.loaded (v - 4)) := by
  have value : Word32.add v n = v + n := Word32.add_eq fits
  exact (allocGetSize_runs low (by omega) size inside).bind (value ▸ Runs.pure _)

theorem allocGetSizePrev_runs (low : 8 ≤ v) (high : v < 2 ^ 32)
    (size : clearFlags (s.mem (v - 8)) = n) (inside : A (v - 8)) :
    Runs A s (allocGetSizePrev v) n (s.loaded (v - 8)) := by
  unfold allocGetSizePrev
  rw [sizePrevField_allocGetDesc low high]
  exact (Runs.load inside).bind (size ▸ Runs.pure _)

theorem allocGetSizeNext_runs {m : ℕ} (low : 8 ≤ v) (fits : v + n + 4 < 2 ^ 32)
    (size : clearFlags (s.mem (v - 4)) = n) (inside : A (v - 4))
    (sizeNext : clearFlags (s.mem (v + n + 4)) = m) (insideNext : A (v + n + 4)) :
    Runs A s (allocGetSizeNext v) m ((s.loaded (v - 4)).loaded (v + n + 4)) := by
  refine (allocGetNextDesc_runs low (by omega) size inside).bind ?_
  rw [sizeField_eq fits]
  exact (Runs.load insideNext).bind (sizeNext ▸ Runs.pure _)

/-- The previous descriptor is computed from `size_prev` without looking at the
chunk before. -/
theorem allocGetPrevDesc_runs (low : 8 ≤ v) (high : v < 2 ^ 32) (inside : A (v - 8)) :
    Runs A s (allocGetPrevDesc v)
      (Word32.sub (Word32.sub v (clearFlags (s.mem (v - 8)))) 16) (s.loaded (v - 8)) :=
  (allocGetSizePrev_runs low high rfl inside).bind (Runs.pure _)

end Accessors

/-! ## The two conditional link updates -/

theorem relinkNext_runs {p v : ℕ} (high : p + 4 < 2 ^ 32) (inside : p ≠ 0 → A (p + 4)) :
    ∃ s', Runs A s (relinkNext p v) () s' ∧
      (∀ a, s'.mem a = if p ≠ 0 ∧ a = p + 4 then v else s.mem a) ∧
      s'.ctxt.freeList = (if p = 0 then v else s.ctxt.freeList) ∧
      s'.ctxt.heapEnd = s.ctxt.heapEnd := by
  unfold relinkNext
  rw [nextField_eq high]
  by_cases null : p = 0
  · exact ⟨_, Runs.ite_neg (by simpa using null) (Runs.setFreeList v), by simp [null],
      by simp [null], rfl⟩
  · refine ⟨_, Runs.ite_pos null (Runs.store (inside null)), ?_, by simp [null], rfl⟩
    intro a
    simp [null, Function.update_apply]

theorem relinkPrev_runs {n v : ℕ} (inside : n ≠ 0 → A n) :
    ∃ s', Runs A s (relinkPrev n v) () s' ∧
      (∀ a, s'.mem a = if n ≠ 0 ∧ a = n then v else s.mem a) ∧ s'.ctxt = s.ctxt := by
  unfold relinkPrev
  by_cases null : n = 0
  · exact ⟨_, Runs.ite_neg (by simpa using null) (Runs.pure ()), by simp [null], rfl⟩
  · refine ⟨_, Runs.ite_pos null (Runs.store (inside null)), ?_, rfl⟩
    intro a
    simp [null, prevField, Function.update_apply]

/-! ## List operations -/

/-- Nodes the allocator can use: 8-byte aligned, inside the address space, and
within the footprint. -/
def GoodNodes (A : ℕ → Prop) (nodes : List ℕ) : Prop :=
  ∀ n ∈ nodes, n % 8 = 0 ∧ n + 8 < 2 ^ 32 ∧ A n ∧ A (n + 4)

namespace NodeList

variable {mem : ℕ → ℕ} {head : ℕ} {nodes : List ℕ}

theorem ne_zero (list : NodeList mem head nodes) {n : ℕ} (member : n ∈ nodes) : n ≠ 0 :=
  list.singly.ne_null member

theorem zero_notMem (list : NodeList mem head nodes) : 0 ∉ nodes :=
  fun member => list.ne_zero member rfl

/-- `prev` and `next` of a list invert each other. -/
theorem prev_eq_iff (list : NodeList mem head nodes) {x y : ℕ} (memX : x ∈ nodes)
    (memY : y ∈ nodes) : mem x = y ↔ mem (y + 4) = x :=
  ⟨list.next_eq_of_prev_eq list.zero_notMem memY memX, list.prev_eq_of_next_eq memY memX⟩

section Others

variable {ys zs : List ℕ} {x : ℕ}

theorem others_ne (list : NodeList mem head (ys ++ x :: zs)) : ∀ n ∈ ys ++ zs, n ≠ x := by
  have nodup := list.nodup
  rw [List.nodup_middle, List.nodup_cons] at nodup
  exact fun n member eq => nodup.1 (eq ▸ member)

theorem next_mem_others (list : NodeList mem head (ys ++ x :: zs)) :
    mem (x + 4) ≠ 0 → mem (x + 4) ∈ ys ++ zs := fun nonnull =>
  List.mem_append_right _ (list.singly.append_cons.2.2.head_mem.resolve_left nonnull)

theorem prev_mem_others (list : NodeList mem head (ys ++ x :: zs)) :
    mem x ≠ 0 → mem x ∈ ys ++ zs := by
  intro nonnull
  have memX : x ∈ ys ++ x :: zs := by simp
  have differs : mem x ≠ x := by
    intro self
    -- a node that is its own predecessor is its own successor, hence repeated
    have forward : mem (x + 4) = x := (list.prev_eq_iff memX memX).mp self
    exact list.others_ne _ (list.next_mem_others (by rwa [forward, ← self])) forward
  rcases List.mem_append.mp ((list.prev_mem memX).resolve_left nonnull) with h | h
  · exact List.mem_append_left _ h
  · exact List.mem_append_right _ ((List.mem_cons.mp h).resolve_left differs)

/-- Unlinking a node, by the effect on the words of the others. -/
theorem unlink {mem' : ℕ → ℕ} (list : NodeList mem head (ys ++ x :: zs))
    (hprev : ∀ y ∈ ys ++ zs, mem' y = if mem y = x then mem x else mem y)
    (hnext : ∀ y ∈ ys ++ zs,
      mem' (y + 4) = if mem (y + 4) = x then mem (x + 4) else mem (y + 4)) :
    NodeList mem' (if head = x then mem (x + 4) else head) (ys ++ zs) :=
  PointerList.Doubly.unlink list list.zero_notMem hprev hnext

/-- Replacing a node, by the effect on the words of the others. -/
theorem replace {mem' : ℕ → ℕ} {x' : ℕ} (list : NodeList mem head (ys ++ x :: zs))
    (nonnull : x' ≠ 0) (selfPrev : mem' x' = mem x) (selfNext : mem' (x' + 4) = mem (x + 4))
    (hprev : ∀ y ∈ ys ++ zs, mem' y = if mem y = x then x' else mem y)
    (hnext : ∀ y ∈ ys ++ zs, mem' (y + 4) = if mem (y + 4) = x then x' else mem (y + 4)) :
    NodeList mem' (if head = x then x' else head) (ys ++ x' :: zs) :=
  PointerList.Doubly.replace list list.zero_notMem nonnull selfPrev selfNext hprev hnext

end Others

/-- Only the head has no predecessor. -/
theorem prev_eq_zero_iff (list : NodeList mem head nodes) {x : ℕ} (memX : x ∈ nodes) :
    mem x = 0 ↔ head = x :=
  PointerList.Doubly.prev_eq_outer_iff list list.zero_notMem memX

/-- A list depends on the words of its nodes. -/
theorem congr {mem' : ℕ → ℕ} (list : NodeList mem head nodes)
    (same : ∀ n ∈ nodes, mem' n = mem n ∧ mem' (n + 4) = mem (n + 4)) :
    NodeList mem' head nodes :=
  PointerList.Doubly.congr list (fun n member => (same n member).1)
    fun n member => (same n member).2

/-- Pushing a node, by the effect on the words of the others. -/
theorem push {mem' : ℕ → ℕ} {x : ℕ} (list : NodeList mem head nodes) (nonnull : x ≠ 0)
    (selfPrev : mem' x = 0) (selfNext : mem' (x + 4) = head)
    (hprev : ∀ y ∈ nodes, mem' y = if y = head then x else mem y)
    (hnext : ∀ y ∈ nodes, mem' (y + 4) = mem (y + 4)) :
    NodeList mem' x (x :: nodes) := by
  refine PointerList.Doubly.pushFront list list.zero_notMem nonnull selfPrev selfNext
    (fun y member => ?_) hnext
  rw [hprev y member]
  exact if_congr ((list.prev_eq_zero_iff member).trans eq_comm).symm rfl rfl

end NodeList

/-- `alloc_node_unlink` removes the node and changes no word but the links of
the other nodes. -/
theorem allocNodeUnlink_runs {ys zs : List ℕ} {x : ℕ}
    (list : NodeList s.mem s.ctxt.freeList (ys ++ x :: zs))
    (good : GoodNodes A (ys ++ x :: zs)) :
    ∃ s', Runs A s (allocNodeUnlink x) () s' ∧
      NodeList s'.mem s'.ctxt.freeList (ys ++ zs) ∧
      (∀ a, (∀ n ∈ ys ++ zs, a ≠ n ∧ a ≠ n + 4) → s'.mem a = s.mem a) ∧
      s'.ctxt.heapEnd = s.ctxt.heapEnd := by
  have memX : x ∈ ys ++ x :: zs := by simp
  have others : ∀ n ∈ ys ++ zs, n ∈ ys ++ x :: zs := by
    intro n member
    rcases List.mem_append.mp member with h | h <;> simp [h]
  have prevMem : s.mem x ≠ 0 → s.mem x ∈ ys ++ zs := list.prev_mem_others
  have nextMem : s.mem (x + 4) ≠ 0 → s.mem (x + 4) ∈ ys ++ zs := list.next_mem_others
  have apart : ∀ n ∈ ys ++ zs, n ≠ x := list.others_ne
  obtain ⟨alignX, highX, inX, inX4⟩ := good x memX
  have prevHigh : s.mem x + 4 < 2 ^ 32 := by
    by_cases null : s.mem x = 0
    · omega
    · have := (good _ (others _ (prevMem null))).2.1
      omega
  obtain ⟨s₁, run₁, mem₁, head₁, end₁⟩ :=
    relinkNext_runs (A := A) (s := (s.loaded x).loaded (x + 4)) (v := s.mem (x + 4)) prevHigh
      (fun nonnull => (good _ (others _ (prevMem nonnull))).2.2.2)
  simp only [loaded_mem, loaded_ctxt] at mem₁ head₁ end₁
  have keepX : s₁.mem x = s.mem x := by
    rw [mem₁, if_neg fun h => ?_]
    have := (good _ (others _ (prevMem h.1))).1
    omega
  have keepX4 : s₁.mem (x + 4) = s.mem (x + 4) := by
    rw [mem₁, if_neg fun h => ?_]
    exact apart _ (prevMem h.1) (by omega)
  obtain ⟨s₂, run₂, mem₂, ctxt₂⟩ :=
    relinkPrev_runs (A := A) (s := (s₁.loaded (x + 4)).loaded x) (n := s.mem (x + 4))
      (v := s.mem x) (fun nonnull => (good _ (others _ (nextMem nonnull))).2.2.1)
  simp only [loaded_mem, loaded_ctxt] at mem₂ ctxt₂
  have run : Runs A s (allocNodeUnlink x) () s₂ := by
    unfold allocNodeUnlink
    rw [nextField_eq (by omega)]
    refine (Runs.load inX).bind ((Runs.load inX4).bind (run₁.bind ?_))
    refine (Runs.load inX4).bind ((Runs.load inX).bind ?_)
    simpa only [loaded_mem, keepX, keepX4] using run₂
  refine ⟨s₂, run, ?_, fun a out => ?_, by rw [ctxt₂, end₁]⟩
  · have unlinked : NodeList s₂.mem
        (if s.ctxt.freeList = x then s.mem (x + 4) else s.ctxt.freeList) (ys ++ zs) := by
      refine list.unlink (fun y member => ?_) fun y member => ?_
      · -- the `prev` word of `y` is rewritten exactly when `y` follows `x`
        have alignY := (good y (others y member)).1
        rw [mem₂, mem₁, if_neg (c := s.mem x ≠ 0 ∧ y = s.mem x + 4) fun h => ?_]
        · refine if_congr ?_ rfl rfl
          rw [list.prev_eq_iff (others y member) memX]
          exact ⟨fun h => h.2.symm, fun h => ⟨h ▸ list.ne_zero (others y member), h.symm⟩⟩
        · have := (good _ (others _ (prevMem h.1))).1
          omega
      · -- the `next` word of `y` is rewritten exactly when `y` precedes `x`
        have alignY := (good y (others y member)).1
        rw [mem₂, mem₁, if_neg (c := s.mem (x + 4) ≠ 0 ∧ y + 4 = s.mem (x + 4)) fun h => ?_]
        · refine if_congr ?_ rfl rfl
          rw [← list.prev_eq_iff memX (others y member)]
          exact ⟨fun h => by omega, fun h => ⟨h ▸ list.ne_zero (others y member), by omega⟩⟩
        · have := (good _ (others _ (nextMem h.1))).1
          omega
    have headEq : s₂.ctxt.freeList
        = if s.ctxt.freeList = x then s.mem (x + 4) else s.ctxt.freeList := by
      rw [ctxt₂, head₁]
      exact if_congr (list.prev_eq_zero_iff memX) rfl rfl
    rw [headEq]
    exact unlinked
  · rw [mem₂, mem₁, if_neg fun h => (out _ (nextMem h.1)).1 h.2,
      if_neg fun h => (out _ (prevMem h.1)).2 h.2]

/-- `alloc_node_add` puts the node in front and changes no other word but the
`prev` link of the old head. -/
theorem allocNodeAdd_runs {nodes : List ℕ} {x : ℕ}
    (list : NodeList s.mem s.ctxt.freeList nodes) (good : GoodNodes A (x :: nodes))
    (nonnull : x ≠ 0) (fresh : x ∉ nodes) :
    ∃ s', Runs A s (allocNodeAdd x) () s' ∧ NodeList s'.mem s'.ctxt.freeList (x :: nodes) ∧
      (∀ a, (∀ n ∈ x :: nodes, a ≠ n ∧ a ≠ n + 4) → s'.mem a = s.mem a) ∧
      s'.ctxt.heapEnd = s.ctxt.heapEnd := by
  obtain ⟨alignX, highX, inX, inX4⟩ := good x (by simp)
  have headMem : s.ctxt.freeList ≠ 0 → s.ctxt.freeList ∈ nodes :=
    list.singly.head_mem.resolve_left
  obtain ⟨s₁, run₁, mem₁, ctxt₁⟩ :=
    relinkPrev_runs (A := A) (s := (s.stored x 0).stored (x + 4) s.ctxt.freeList)
      (n := s.ctxt.freeList) (v := x)
      (fun nonnull => (good _ (List.mem_cons_of_mem _ (headMem nonnull))).2.2.1)
  simp only [stored_mem, stored_ctxt, Function.update_apply] at mem₁ ctxt₁
  refine ⟨{ s₁ with ctxt := { s₁.ctxt with freeList := x } }, ?_, ?_, fun a out => ?_, by
    simp only [ctxt₁]⟩
  · unfold allocNodeAdd
    rw [nextField_eq (by omega)]
    exact (Runs.store inX).bind (Runs.getFreeList.bind ((Runs.store inX4).bind
      (run₁.bind (Runs.setFreeList x))))
  · refine list.push nonnull ?_ ?_ (fun y member => ?_) fun y member => ?_
    · simp only [mem₁]
      rw [if_neg (c := s.ctxt.freeList ≠ 0 ∧ x = s.ctxt.freeList) fun h =>
        fresh (h.2 ▸ headMem h.1), if_neg (by omega), if_pos trivial]
    · simp only [mem₁]
      rw [if_neg fun h => ?_, if_pos trivial]
      have := (good _ (List.mem_cons_of_mem _ (headMem h.1))).1
      omega
    · have alignY := (good y (List.mem_cons_of_mem _ member)).1
      have differs : y ≠ x := fun eq => fresh (eq ▸ member)
      simp only [mem₁]
      rw [if_neg (c := y = x + 4) (by omega), if_neg (c := y = x) differs]
      exact if_congr ⟨fun h => h.2, fun h => ⟨h ▸ list.ne_zero member, h⟩⟩ rfl rfl
    · have alignY := (good y (List.mem_cons_of_mem _ member)).1
      have differs : y ≠ x := fun eq => fresh (eq ▸ member)
      simp only [mem₁]
      rw [if_neg fun h => ?_, if_neg (by omega), if_neg (by omega)]
      have := (good _ (List.mem_cons_of_mem _ (headMem h.1))).1
      omega
  · have outX := out x (by simp)
    simp only [mem₁]
    rw [if_neg fun h => (out _ (List.mem_cons_of_mem _ (headMem h.1))).1 h.2,
      if_neg outX.2, if_neg outX.1]

/-! ## Flags -/

/-- `alloc_set_free` sets the flag in both size tags. -/
theorem allocSetFree_runs {v n : ℕ} (low : 8 ≤ v) (fits : v + n < 2 ^ 32) (mult : n % 8 = 0)
    (own : s.mem (v - 4) = n) (next : s.mem (v + n) = n) (inOwn : A (v - 4))
    (inNext : A (v + n)) :
    ∃ s', Runs A s (allocSetFree v) () s' ∧
      s'.mem = Function.update (Function.update s.mem (v - 4) (n + 1)) (v + n) (n + 1) ∧
      s'.ctxt = s.ctxt := by
  have flag : n ||| kmChunkFree = n + 1 := Word32.or_one_of_even (by omega)
  refine ⟨((((s.loaded (v - 4)).stored (v - 4) (n + 1)).loaded (v - 4)).loaded (v + n)).stored
    (v + n) (n + 1), ?_, rfl, rfl⟩
  unfold allocSetFree
  rw [sizeField_allocGetDesc low (by omega)]
  refine (Runs.load inOwn).bind ?_
  rw [own, flag]
  refine (Runs.store inOwn).bind ?_
  refine (allocGetNextDesc_runs low fits ?_ inOwn).bind ?_
  · rw [stored_mem, Function.update_self, clearFlags_eq (by omega)]
    omega
  · refine (Runs.load inNext).bind ?_
    have value : (((s.loaded (v - 4)).stored (v - 4) (n + 1)).loaded (v - 4)).mem (v + n)
        = n := by
      rw [loaded_mem, stored_mem, Function.update_of_ne (by omega), loaded_mem, next]
    rw [sizePrevField, value, flag]
    exact Runs.store inNext

/-- `alloc_clear_free` clears the flag in both size tags. -/
theorem allocClearFree_runs {v n : ℕ} (low : 8 ≤ v) (fits : v + n + 1 < 2 ^ 32)
    (mult : n % 8 = 0) (own : s.mem (v - 4) = n + 1) (next : s.mem (v + n) = n + 1)
    (inOwn : A (v - 4)) (inNext : A (v + n)) :
    ∃ s', Runs A s (allocClearFree v) () s' ∧
      s'.mem = Function.update (Function.update s.mem (v - 4) n) (v + n) n ∧
      s'.ctxt = s.ctxt := by
  have flag : (n + 1) &&& Word32.not kmChunkFree = n := by
    rw [and_not_free (by omega)]
    omega
  refine ⟨((((s.loaded (v - 4)).stored (v - 4) n).loaded (v - 4)).loaded (v + n)).stored
    (v + n) n, ?_, rfl, rfl⟩
  unfold allocClearFree
  rw [sizeField_allocGetDesc low (by omega)]
  refine (Runs.load inOwn).bind ?_
  rw [own, flag]
  refine (Runs.store inOwn).bind ?_
  refine (allocGetNextDesc_runs (n := n) low (by omega) ?_ inOwn).bind ?_
  · rw [stored_mem, Function.update_self, clearFlags_eq (by omega)]
    omega
  · refine (Runs.load inNext).bind ?_
    have value : (((s.loaded (v - 4)).stored (v - 4) n).loaded (v - 4)).mem (v + n)
        = n + 1 := by
      rw [loaded_mem, stored_mem, Function.update_of_ne (by omega), loaded_mem, next]
    rw [sizePrevField, value, flag]
    exact Runs.store inNext

end TrashOS
