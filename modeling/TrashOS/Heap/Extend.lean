import TrashOS.Heap.Free

/-!
# Extending a heap

`alloc` from the label `extend_heap` on, in its three parts: `allocPad` (align
the end, giving the gap to the free list), the page loop, and `allocFinish`
(write the descriptors of the new chunk).  Between the first and the last the
heap is *open*: `ctxt->end` already lies behind the region of the heap, so that
a nested `free` never takes its end-of-heap branch.
-/

namespace TrashOS

variable {π : Type} [PageLayer π] {s s' : Sys π} {H : Heap} {keep : Chunk → Prop}

/-! ## Alignment of the end -/

/-- What `allocPad` makes of the heap when the end moves up to `target`: nothing,
or a free chunk in the gap. -/
inductive Padded (H : Heap) (target : ℕ) : Heap → Prop
  | aligned (eq : target = H.stop) : Padded H target H
  | gap (closed : H.Closed) (n : ℕ) (pos : 0 < n) (mult : n % 8 = 0)
      (fits : H.stop + n + 8 < 2 ^ 32) (eq : target = H.stop + n + 8) :
      Padded H target (H.pad closed n pos mult fits)

theorem Padded.stop {target : ℕ} {M : Heap} (padded : Padded H target M) : M.stop = target := by
  cases padded with
  | aligned eq => exact eq.symm
  | gap closed n pos mult fits eq => exact eq.symm

theorem Padded.first {target : ℕ} {M : Heap} (padded : Padded H target M) :
    M.first = H.first := by
  cases padded <;> rfl

/-- The free chunk in the gap. -/
theorem padGap_runs {n : ℕ} (rep : Represents s H) (closed : H.Closed) (pos : 0 < n)
    (mult : n % 8 = 0) (fits : H.stop + n + 8 < 2 ^ 32) (live : KeepsLive H keep) :
    ∃ s', Runs (Footprint H.first (H.stop + n + 8) keep) s (do
        let freeChunk := allocGetDesc H.stop
        store (sizeField freeChunk) n
        let size ← load (sizeField freeChunk)
        store (sizeField freeChunk) (size ||| kmChunkFree)
        let freeChunkNext ← allocGetNextDesc H.stop
        let size ← load (sizeField freeChunk)
        store (sizePrevField freeChunkNext) size
        allocNodeAdd H.stop
        setEnd (Word32.add H.stop (n + 8))) () s' ∧
      Represents s' (H.pad closed n pos mult fits) ∧ s'.ctxt.heapEnd = H.stop + n + 8 := by
  have low := H.first_le_stop
  have aligned := H.stop_aligned
  have within : ∀ b, H.stop ≤ b + 8 → b < H.stop + n + 8 →
      Footprint H.first (H.stop + n + 8) keep b := fun b lower upper =>
    Footprint.of_stop_le live lower upper
  have flag : n ||| kmChunkFree = n + 1 := Word32.or_one_of_even (by omega)
  have total : Word32.add H.stop (n + 8) = H.stop + n + 8 := by
    rw [Word32.add_eq (by omega)]
    omega
  let s₁ : Sys π := (((((s.stored (H.stop - 4) n).loaded (H.stop - 4)).stored (H.stop - 4)
    (n + 1)).loaded (H.stop - 4)).loaded (H.stop - 4)).stored (H.stop + n) (n + 1)
  have mem₁ : s₁.mem = Function.update (Function.update (Function.update s.mem (H.stop - 4) n)
    (H.stop - 4) (n + 1)) (H.stop + n) (n + 1) := rfl
  have links₁ : NodeList s₁.mem s₁.ctxt.freeList H.order := by
    refine rep.links.off (fun _ listed => listed) fun b on => ?_
    have offNext : OffLists H (H.stop + n) := offLists_of_stop_le (by omega)
    have offOwn : OffLists H (H.stop - 4) := offLists_of_stop_le (by omega)
    rw [mem₁, Function.update_of_ne fun eq => on (by rwa [eq]),
      Function.update_of_ne fun eq => on (by rwa [eq]),
      Function.update_of_ne fun eq => on (by rwa [eq])]
  have fresh : H.stop ∉ H.order := fun listed => by
    obtain ⟨e, memE, -, same⟩ := Heap.mem_order.mp listed
    have := H.range memE
    omega
  have good : GoodNodes (Footprint H.first (H.stop + n + 8) keep) (H.stop :: H.order) := by
    intro m listed
    rcases List.mem_cons.mp listed with rfl | old
    · exact ⟨aligned, by omega, within _ (by omega) (by omega), within _ (by omega) (by omega)⟩
    · exact Heap.goodNodes live (by omega) m old
  obtain ⟨s₂, run₂, links₂, frame₂, end₂⟩ := allocNodeAdd_runs links₁ good (by omega) fresh
  have notLink : ∀ b, OffLists H b → b ≠ H.stop → b ≠ H.stop + 4 → s₂.mem b = s₁.mem b := by
    intro b off ne ne4
    refine frame₂ b fun m listed => ?_
    rcases List.mem_cons.mp listed with rfl | old
    · exact ⟨ne, ne4⟩
    · exact off.ne_link old
  have untouched : ∀ b, OffLists H b → b < H.stop - 4 → s₂.mem b = s.mem b := by
    intro b off lower
    rw [notLink b off (by omega) (by omega), mem₁, Function.update_of_ne (by omega),
      Function.update_of_ne (by omega), Function.update_of_ne (by omega)]
  refine ⟨{ s₂ with ctxt := { s₂.ctxt with heapEnd := H.stop + n + 8 } }, ?_, ?_, rfl⟩
  · dsimp only
    rw [sizeField_allocGetDesc (by omega) (by omega), total]
    refine (Runs.store (within _ (by omega) (by omega))).bind ?_
    refine (Runs.load_eq (v := n) (within _ (by omega) (by omega)) ?_).bind ?_
    · rw [stored_mem, Function.update_self]
    rw [flag]
    refine (Runs.store (within _ (by omega) (by omega))).bind ?_
    refine (allocGetNextDesc_runs (n := n) (by omega) (by omega) ?_
      (within _ (by omega) (by omega))).bind ?_
    · rw [stored_mem, Function.update_self, clearFlags_eq (by omega)]
      omega
    refine (Runs.load_eq (v := n + 1) (within _ (by omega) (by omega)) ?_).bind ?_
    · rw [loaded_mem, stored_mem, Function.update_self]
    rw [sizePrevField]
    refine (Runs.store (within _ (by omega) (by omega))).bind ?_
    exact run₂.bind (Runs.setEnd _)
  · refine rep.change rfl (untouched _ offLists_first (by omega)) (fun e member => ?_) links₂
    rcases List.mem_append.mp member with old | new
    · have rangeE := H.range old
      exact Or.inl ⟨old, untouched _ (offLists_before old (by omega) (by omega)) (by omega),
        untouched _ (offLists_after old le_rfl (by omega)) (by omega)⟩
    · right
      obtain rfl := List.mem_singleton.mp new
      simp only [Chunk.tag_free]
      constructor
      · rw [notLink _ (offLists_of_stop_le (by omega)) (by omega) (by omega), mem₁,
          Function.update_of_ne (by omega), Function.update_self]
      · rw [notLink _ (offLists_of_stop_le (by omega)) (by omega) (by omega), mem₁,
          Function.update_self]

/-- `alloc`, "Add unused space to free list if necessary": it stops if the gap has
room for a descriptor only, and returns otherwise. -/
theorem allocPad_cases {alignment target : ℕ} (rep : Represents s H) (closed : H.Closed)
    (atEnd : s.ctxt.heapEnd = H.stop) (live : KeepsLive H keep)
    (aligned : align H.stop alignment = target) (le : H.stop ≤ target) (mult : target % 8 = 0)
    (fits : target < 2 ^ 32) :
    (target = H.stop + 8 ∧ allocPad alignment s =
      .error (.die "alloc: fatal: free block below min size: %u\n" 8)) ∨
    ∃ M s', Padded H target M ∧ Runs (Footprint H.first target keep) s (allocPad alignment) () s' ∧
      Represents s' M ∧ s'.ctxt.heapEnd = target ∧ target ≠ H.stop + 8 ∧
      (target = H.stop → s' = s) := by
  have gap : Word32.sub target H.stop = target - H.stop := Word32.sub_eq le fits
  have alignedStop := H.stop_aligned
  have start : allocPad alignment s = _ :=
    Prog.bind_of_ok (m := getEnd) (a := H.stop) (t := s) (by rw [← atEnd]; rfl)
  simp only [aligned, gap] at start
  by_cases exact : target = H.stop
  · rw [if_neg (by omega)] at start
    exact Or.inr ⟨H, s, Padded.aligned exact, ⟨start, Touch.refl _ s⟩, rep,
      atEnd.trans exact.symm, by omega, fun _ => rfl⟩
  · rw [if_pos (by omega)] at start
    by_cases small : target - H.stop ≤ chunkDescSize
    · rw [if_pos small] at start
      unfold chunkDescSize at small
      have eight : target = H.stop + 8 := by omega
      refine Or.inl ⟨eight, ?_⟩
      rw [start, eight, Nat.add_sub_cancel_left]
      rfl
    · rw [if_neg small] at start
      unfold chunkDescSize at small
      obtain ⟨n, size⟩ : ∃ n, target = H.stop + n + 8 := ⟨target - H.stop - 8, by omega⟩
      have rest : Word32.sub (n + 8) chunkDescSize = n := by
        rw [chunkDescSize, Word32.sub_eq (by omega) (by omega)]
        omega
      rw [show target - H.stop = n + 8 by omega, rest] at start
      obtain ⟨t, run, rep', atEnd'⟩ := padGap_runs (n := n) rep closed (by omega) (by omega)
        (by omega) live
      exact Or.inr ⟨_, t, Padded.gap closed n (by omega) (by omega) (by omega) size,
        ⟨start.trans run.1, size ▸ run.2⟩, rep', atEnd'.trans size.symm, by omega,
        fun same => absurd same exact⟩

/-! ## The new chunk -/

/-- `alloc`, "Initialize chunk descriptors". -/
theorem allocFinish_runs {n : ℕ} (rep : Represents s H) (pos : 0 < n) (mult : n % 8 = 0)
    (fits : H.stop + n + 8 < 2 ^ 32) (live : KeepsLive H keep) :
    ∃ s', Runs (Footprint H.first (H.stop + n + 8) keep) s (allocFinish H.stop n) () s' ∧
      Represents s' (H.grow n pos mult fits) ∧ TerminalClear s' (H.grow n pos mult fits) ∧
      s'.ctxt = s.ctxt := by
  have low := H.first_le_stop
  have aligned := H.stop_aligned
  have within : ∀ b, H.stop ≤ b + 8 → b < H.stop + n + 8 →
      Footprint H.first (H.stop + n + 8) keep b := fun b lower upper =>
    Footprint.of_stop_le live lower upper
  refine ⟨(((s.stored (H.stop - 4) n).loaded (H.stop - 4)).stored (H.stop + n) n).stored
    (H.stop + n + 4) 0, ?_, ?_, ?_, rfl⟩
  · unfold allocFinish
    rw [sizeField_allocGetDesc (by omega) (by omega)]
    refine (Runs.store (within _ (by omega) (by omega))).bind ?_
    refine (allocGetNextDesc_runs (n := n) (by omega) (by omega) ?_
      (within _ (by omega) (by omega))).bind ?_
    · rw [stored_mem, Function.update_self, clearFlags_eq (by omega)]
      omega
    rw [sizePrevField, sizeField_eq (by omega)]
    exact (Runs.store (within _ (by omega) (by omega))).bind
      (Runs.store (within _ (by omega) (by omega)))
  · have untouched : ∀ b, b < H.stop - 4 → ((((s.stored (H.stop - 4) n).loaded
        (H.stop - 4)).stored (H.stop + n) n).stored (H.stop + n + 4) 0).mem b = s.mem b := by
      intro b lower
      simp only [stored_mem, loaded_mem]
      rw [Function.update_of_ne (by omega), Function.update_of_ne (by omega),
        Function.update_of_ne (by omega)]
    refine rep.change rfl (untouched _ (by omega)) (fun e member => ?_) ?_
    · rcases List.mem_append.mp member with old | new
      · have rangeE := H.range old
        exact Or.inl ⟨old, untouched _ (by omega), untouched _ (by omega)⟩
      · right
        obtain rfl := List.mem_singleton.mp new
        simp only [Chunk.tag_used, stored_mem, loaded_mem]
        constructor
        · rw [Function.update_of_ne (by omega), Function.update_of_ne (by omega),
            Function.update_self]
        · rw [Function.update_of_ne (by omega), Function.update_self]
    · refine NodeList.congr rep.links fun m listed => ?_
      obtain ⟨e, memE, -, rfl⟩ := (Heap.mem_order (H := H)).mp listed
      have rangeE := H.range memE
      exact ⟨untouched _ (by omega), untouched _ (by omega)⟩
  · have stop : (H.grow n pos mult fits).stop = H.stop + n + 8 := rfl
    rw [TerminalClear, stop, stored_mem, show H.stop + n + 8 - 4 = H.stop + n + 4 by omega,
      Function.update_self]

end TrashOS
