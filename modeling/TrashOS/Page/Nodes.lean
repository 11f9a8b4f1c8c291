import TrashOS.Page.Grow

/-!
# A heap of list nodes

While `page_init_cleanup` frees the pages of the init section, the kernel heap holds
nothing but the nodes of `page_free_list`.  A node is 8 bytes behind a descriptor,
so the end of such a heap says how many nodes it was made for, and the number of
nodes on the list how much of it is free (`Heap.extent`).

Freeing a page takes a free chunk if there is one.  Otherwise the heap grows by 16
bytes, and where the new node ends on a page that is not mapped yet, `page_new` takes
the head of the list, whose chunk is then free for the next node.  `NodeHeap` counts
both; `NodeHeap.pageFree` is the step and `NodeHeap.needs` what it takes to return.
-/

namespace TrashOS

/-! ## The extent of a heap -/

/-- The bytes of chunks with their descriptors. -/
def extentOf (chunks : List Chunk) : ℕ := (chunks.map fun c => c.size + 8).sum

section Extent

variable {H : Heap} {nodes : List ℕ}

theorem Tiled.extent : ∀ {cs : List Chunk} {v e : ℕ}, Tiled v cs e → v + extentOf cs = e
  | [], _, _, tiled => tiled
  | c :: cs, v, e, tiled => by
      obtain ⟨-, -, -, tiled⟩ := tiled_cons.mp tiled
      rw [← tiled.extent]
      unfold extentOf
      rw [List.map_cons, List.sum_cons]
      omega

theorem extentOf_split (cs : List Chunk) :
    extentOf cs = extentOf (liveOf cs) + extentOf (cs.filter fun c => c.free) := by
  induction cs with
  | nil => rfl
  | cons c cs ih =>
      unfold extentOf liveOf at ih ⊢
      cases isFree : c.free with
      | false =>
          rw [List.filter_cons_of_pos (by simp [isFree]), List.filter_cons_of_neg (by simp [isFree]),
            List.map_cons, List.map_cons, List.sum_cons, List.sum_cons, ih, ← Nat.add_assoc]
      | true =>
          rw [List.filter_cons_of_neg (by simp [isFree]), List.filter_cons_of_pos (by simp [isFree]),
            List.map_cons, List.map_cons, List.sum_cons, List.sum_cons, ih, Nat.add_left_comm]

theorem extentOf_nodes (nodes : List ℕ) : extentOf (nodes.map nodeChunk) = 16 * nodes.length := by
  induction nodes with
  | nil => rfl
  | cons n nodes ih =>
      unfold extentOf at ih ⊢
      rw [List.map_cons, List.map_cons, List.sum_cons, ih, List.length_cons]
      change 8 + 8 + _ = _
      omega

/-- The end of a heap of nodes: what the nodes do not take is free. -/
theorem Heap.extent (H : Heap) (live : (liveOf H.chunks).Perm (nodes.map nodeChunk)) :
    H.first + 8 + 16 * nodes.length + extentOf (H.chunks.filter fun c => c.free) = H.stop := by
  have total := H.tiled.extent
  have used : extentOf (liveOf H.chunks) = 16 * nodes.length := by
    rw [← extentOf_nodes]
    exact (live.map _).sum_nat
  rw [extentOf_split, used] at total
  omega

/-- No node has a chunk left. -/
theorem not_canServe_of_full (live : (liveOf H.chunks).Perm (nodes.map nodeChunk))
    (full : H.stop = H.first + 8 + 16 * nodes.length) : ¬ CanServe H pageFreeNodeSize := by
  rintro ⟨c, member, isFree, -⟩
  have extent := H.extent live
  have listed : c ∈ H.chunks.filter fun c => c.free := List.mem_filter.mpr ⟨member, isFree⟩
  cases chunks : H.chunks.filter fun c => c.free with
  | nil => exact absurd (chunks ▸ listed) List.not_mem_nil
  | cons d ds =>
      rw [chunks] at extent
      unfold extentOf at extent
      rw [List.map_cons, List.sum_cons] at extent
      omega

/-- One node has. -/
theorem canServe_of_spare (live : (liveOf H.chunks).Perm (nodes.map nodeChunk))
    (spare : H.stop = H.first + 8 + 16 * (nodes.length + 1)) : CanServe H pageFreeNodeSize := by
  have extent := H.extent live
  cases chunks : H.chunks.filter fun c => c.free with
  | nil =>
      rw [chunks] at extent
      change H.first + 8 + 16 * nodes.length + 0 = _ at extent
      omega
  | cons c cs =>
      have listed : c ∈ H.chunks.filter fun c => c.free := chunks ▸ List.mem_cons_self
      obtain ⟨member, isFree⟩ := List.mem_filter.mp listed
      have range := H.range member
      rw [chunks] at extent
      unfold extentOf at extent
      rw [List.map_cons, List.sum_cons] at extent
      refine ⟨c, member, isFree, Or.inl ?_⟩
      unfold pageFreeNodeSize
      omega

end Extent

/-! ## What an extension needs -/

section Needs

variable {s s' : Sys PageTables} {H : Heap} {nodes : List ℕ} {alignment target n v depth : ℕ}

/-- The page loop returns only if every page has a table. -/
theorem mapEach_needs {u : Unit} :
    ∀ (pages : List ℕ) {s s' : Sys PageTables} {P : Heap} {nodes : List ℕ}, OpenKernel s P nodes →
      mapEach (pageNew (depth + 1)) pages s = .ok (u, s') →
      ∀ p ∈ pages, (s.pages.entryOf p).isSome
  | [], _, _, _, _, _, _ => fun _ none => absurd none List.not_mem_nil
  | page :: pages, s, s', P, nodes, openP, returned => by
      obtain ⟨pma, s₁, Q, popped, rest, run, supplied, table, -⟩ := pageNewWith_open openP
      have first : pageNew (depth + 1) s = .ok (pma, s₁) := run _
      unfold mapEach at returned
      rw [Prog.bind_of_ok first] at returned
      obtain ⟨u₂, s₂, set, returned⟩ := Prog.bind_eq_ok.mp returned
      have open₂ := supplied.openQ.setEntry set
      obtain ⟨old, there, rfl⟩ := pageSetEntry_eq_ok.mp set
      intro p member
      rw [← entryOf_table table]
      rcases List.mem_cons.mp member with rfl | member
      · exact Option.isSome_iff_exists.mpr ⟨old, there⟩
      · have later := mapEach_needs pages open₂ returned p member
        rwa [PageTables.entryOf_write_isSome] at later

/-- **An extension returns only if** its padding has room for a chunk, the address space
suffices and its pages have tables. -/
theorem KernelHeap.extend_needs (kernel : KernelHeap s H nodes)
    (aligned : align H.stop alignment = target) (le : H.stop ≤ target) (multT : target % 8 = 0)
    (word : target + n + 8 < 2 ^ 32)
    (returned : extendHeap (pageNew (depth + 1)) alignment n s = .ok (v, s')) :
    target ≠ H.stop + 8 ∧ target + n + 8 ≤ 2 ^ 32 - pageSize ∧
      ∀ p ∈ startsBetween target (target + n + 8), (s.pages.entryOf p).isSome := by
  rcases extendHeap_opens kernel.ctx kernel.terminal aligned le multT word with
    ⟨-, dies⟩ | ⟨P, s₁, padded, touch, notEight, -, openP, split⟩
  · rw [dies] at returned
    cases returned
  rw [split] at returned
  obtain ⟨u, s₂, loop, -⟩ := Prog.bind_eq_ok.mp returned
  have room : target + n + 8 ≤ 2 ^ 32 - pageSize := by
    by_contra high
    exact allocMapPages_never_returns _ (by omega) _ (align_page_mod (by omega))
      (Word32.add_lt _ _) loop
  rw [allocMapPages_eq _ (by omega) room (length_startsBetween_lt word.le)] at loop
  refine ⟨notEight, room, fun p member => ?_⟩
  have there := mapEach_needs _ (kernel.opened padded touch openP) loop p member
  change (s₁.pages.entryOf p).isSome at there
  rwa [touch.pages] at there

end Needs

/-! ## Growing by a node -/

/-- How many nodes the page loop leaves on the list. -/
def Counted (all total : ℕ) (todo : List ℕ) (_s : Sys PageTables) (nodes : List ℕ) : Prop :=
  ∃ done, done + todo.length = all ∧ nodes.length = total - done

theorem counted_keeps (all total : ℕ) : LoopKeeps (Counted all total) where
  accessed _ _ _ _ counted _ := counted
  turn {page todo s P nodes pma s' rest} counted new _ _ := by
    obtain ⟨done, sum, length⟩ := counted
    rw [List.length_cons] at sum
    refine ⟨done + 1, by omega, ?_⟩
    rcases new.source with ⟨rfl, rfl, -⟩ | ⟨-, n, rfl, -⟩
    · rw [List.length_nil] at length ⊢
      omega
    · rw [List.length_cons] at length
      omega

section Grows

variable {s : Sys PageTables} {H : Heap} {nodes : List ℕ} {p : ℕ}

/-- **`page_free`, when the free list has no room for its node**: the heap grows. -/
theorem pageFree_grows {I : List ℕ → Sys PageTables → List ℕ → Prop} (keeps : LoopKeeps I)
    (kernel : KernelHeap s H nodes) (full : ¬ CanServe H pageFreeNodeSize)
    (fits : H.stop + pageFreeNodeSize + 8 ≤ 2 ^ 32 - pageSize)
    (tables : ∀ q ∈ startsBetween H.stop (H.stop + pageFreeNodeSize + 8),
      (s.pages.entryOf q).isSome)
    (there : (s.pages.entryOf p).isSome)
    (holds : I (startsBetween H.stop (H.stop + pageFreeNodeSize + 8)) s nodes) :
    ∃ t M popped rest e, (∀ depth, pageFree (depth + 2) p s = .ok ((), t.noted H.stop p e)) ∧
      t.pages.entryOf p = some e ∧ Grown s H nodes H.stop pageFreeNodeSize t M popped rest ∧
      KernelHeap (t.noted H.stop p e) M (H.stop :: rest) ∧ M.Live (nodeChunk H.stop) ∧
      H.stop ∉ rest ∧ I [] t rest := by
  rcases kernel.alloc_cases kmMinAllocSize (show pageFreeNodeSize + 15 < 2 ^ 32 by decide) with
    ⟨-, -, s₁, kernel₁, touch, split⟩ | ⟨-, v, s₁, M, -, -, found, -⟩
  · rw [roundBytes_node] at split
    have accessed := touch.accessed kernel.live
    obtain ⟨t, M, popped, rest, runs, grown, final⟩ := kernel₁.extend keeps
      (align_kmMin H.stop_aligned H.bound) le_rfl H.stop_aligned (by omega) (by decide)
      (by decide) fits (accessed.pages ▸ tables) (keeps.accessed _ holds accessed)
    have grownS := grown.of_pages accessed.pages
    have fresh : H.stop ∉ rest := by
      intro member
      have range := H.range (kernel.live H.stop (grown.nodes ▸ List.mem_append_right _ member)).1
      unfold nodeChunk at range
      dsimp only at range
      omega
    obtain ⟨e, thereT⟩ := Option.isSome_iff_exists.mp ((grownS.tables p).trans there)
    have word : H.stop + 4 < 2 ^ 32 := by
      unfold pageSize at fits
      omega
    exact ⟨t, M, popped, rest, e, fun depth => pageFreeWith_run word
      ((split _).trans (runs depth)) thereT, thereT, grownS,
      grown.heap.noted grown.heaps.block fresh p e, grown.heaps.block, fresh, final⟩
  · rw [roundBytes_node] at found
    exact absurd (found.canServe (by decide)) full

end Grows

/-! ## One page after another -/

/-- **A heap of list nodes**: room was made for `made` nodes, of which `spare` is free. -/
structure NodeHeap (s : Sys PageTables) (H : Heap) (nodes : List ℕ) (made spare : ℕ) : Prop where
  heap : KernelHeap s H nodes
  live : (liveOf H.chunks).Perm (nodes.map nodeChunk)
  count : nodes.length + spare = made
  few : spare ≤ 1
  stop : H.stop = H.first + 8 + 16 * made
  present : PresentBetween s.pages H.first H.stop

/-- The nodes made and spare after another page was freed.  Where the new node ends on
the next page, a node is popped. -/
def nextCount (made spare : ℕ) : ℕ × ℕ :=
  if spare = 0 then (made + 1, if made % 256 = 255 then 1 else 0) else (made, spare - 1)

/-- A property of the state and the page list that `page_free` keeps, for a page with
this entry. -/
structure FreeKeeps (I : Sys PageTables → List ℕ → Prop) (p : ℕ) (entry : Option ℕ) : Prop where
  loop : LoopKeeps fun _ s nodes => I s nodes
  noted : ∀ {s nodes node e}, I s nodes → s.pages.entryOf p = some e → entry = some e →
    (∀ n ∈ nodes, (s.noted node p e).mem n = s.mem n) → I (s.noted node p e) (node :: nodes)

theorem FreeKeeps.accessed {I : Sys PageTables → List ℕ → Prop} {p : ℕ} {entry : Option ℕ}
    (keeps : FreeKeeps I p entry) {s s' : Sys PageTables} {nodes : List ℕ} (holds : I s nodes)
    (accessed : Accessed nodes s s') : I s' nodes :=
  keeps.loop.accessed [] holds accessed

section Count

variable {s t : Sys PageTables} {H M : Heap} {nodes : List ℕ} {made spare p node e : ℕ}

/-- The pages that start in a new node. -/
theorem length_starts_node {first : ℕ} (aligned : first % pageSize = 0) (made : ℕ) :
    (startsBetween (first + 8 + 16 * made)
      (first + 8 + 16 * made + pageFreeNodeSize + 8)).length =
        if made % 256 = 255 then 1 else 0 := by
  unfold startsBetween pagesUpTo alignedEnd
  rw [List.length_range']
  unfold pageSize pageFreeNodeSize at *
  split <;> omega

/-- The words of a node are no words of another one. -/
theorem noted_mem_of_live {n : ℕ} (live : M.Live (nodeChunk node)) (liveN : M.Live (nodeChunk n))
    (differ : n ≠ node) : (t.noted node p e).mem n = t.mem n := by
  refine noted_mem_of_off fun holds => differ ?_
  exact nodeChunk_injective (Heap.holds_unique liveN.1 live.1 (nodeChunk_holds n).1 holds)

/-- Unmapping a page below the heap. -/
theorem PresentBetween.noted {first stop : ℕ} (aligned : first % pageSize = 0) (below : p < first)
    (present : PresentBetween t.pages first stop) :
    PresentBetween (t.noted node p e).pages first stop := by
  intro q multiple lower upper
  have other : q / pageSize ≠ p / pageSize := by
    unfold pageStart at lower
    unfold pageSize at *
    omega
  have same : PageLayer.mapped (t.noted node p e).pages q =
      PageLayer.mapped (t.pages.write p (e &&& Word32.not pagePresent)) q :=
    PageTables.mapped_of_table rfl
  rw [same, PageTables.mapped_write_other other]
  exact present q multiple lower upper

theorem entryOf_noted_isSome (v : ℕ) :
    ((t.noted node p e).pages.entryOf v).isSome = (t.pages.entryOf v).isSome :=
  PageTables.entryOf_write_isSome

theorem entryOf_noted_other {v : ℕ} (other : v / pageSize ≠ p / pageSize) :
    (t.noted node p e).pages.entryOf v = t.pages.entryOf v :=
  PageTables.entryOf_write_other other

/-- **Freeing a page below a heap of nodes.** -/
theorem NodeHeap.pageFree {I : Sys PageTables → List ℕ → Prop}
    (inv : NodeHeap s H nodes made spare) (aligned : H.first % pageSize = 0) (below : p < H.first)
    (keeps : FreeKeeps I p (s.pages.entryOf p)) (there : (s.pages.entryOf p).isSome)
    (fits : spare = 0 → H.stop + 16 ≤ 2 ^ 32 - pageSize ∧
      ∀ q, q % pageSize = 0 → H.stop ≤ q → q < H.stop + 16 → (s.pages.entryOf q).isSome)
    (holds : I s nodes) :
    ∃ s' M nodes', (∀ depth, TrashOS.pageFree (depth + 2) p s = .ok ((), s')) ∧
      M.first = H.first ∧
      NodeHeap s' M nodes' (nextCount made spare).1 (nextCount made spare).2 ∧
      (∀ v, (s'.pages.entryOf v).isSome = (s.pages.entryOf v).isSome) ∧
      (∀ v < H.first, v / pageSize ≠ p / pageSize → s'.pages.entryOf v = s.pages.entryOf v) ∧
      I s' nodes' := by
  have few := inv.few
  have count := inv.count
  have stop := inv.stop
  obtain ⟨e, entry⟩ := Option.isSome_iff_exists.mp there
  by_cases full : spare = 0
  · -- the heap grows by the node
    subst full
    obtain ⟨room, tables⟩ := fits rfl
    have none := not_canServe_of_full inv.live (by omega)
    have both := keeps.loop.and (counted_keeps
      (startsBetween H.stop (H.stop + pageFreeNodeSize + 8)).length nodes.length)
    obtain ⟨t, M, popped, rest, e', runs, entry', grown, kernel, live, fresh, final, done, sum,
      length⟩ := pageFree_grows both inv.heap none room (fun q member => by
        obtain ⟨multiple, lower, upper⟩ := mem_startsBetween.mp member
        exact tables q multiple lower upper) there ⟨holds, 0, Nat.zero_add _, rfl⟩
    have behind : ∀ v < H.first, t.pages.entryOf v = s.pages.entryOf v := by
      intro v low
      refine grown.others v fun inside => ?_
      obtain ⟨q, member, same⟩ := List.mem_map.mp inside
      obtain ⟨-, lower, -⟩ := mem_startsBetween.mp member
      unfold pageSize at *
      omega
    have same : e' = e := by
      have := (behind p below).symm.trans entry'
      rw [entry] at this
      exact (Option.some.inj this).symm
    subst same
    rw [stop, length_starts_node aligned] at sum
    rw [List.length_nil] at sum
    have next : nextCount made 0 = (made + 1, if made % 256 = 255 then 1 else 0) := if_pos rfl
    have stopM := grown.heaps.stop
    rw [next]
    refine ⟨_, M, H.stop :: rest, runs, grown.heaps.first,
      ⟨kernel, ?_, ?_, ?_, ?_, ?_⟩, fun v => ?_, fun v low other => ?_, ?_⟩
    · have perm := inv.live
      rw [grown.nodes] at perm
      have final : (liveOf M.chunks).Perm (⟨H.stop, pageFreeNodeSize, false⟩ :: [] ++
          rest.map nodeChunk) := grown.heaps.live_rest perm
      exact final
    · rw [List.length_cons, length]
      dsimp only
      split at sum <;> simp only [*, if_true, if_false] <;> omega
    · dsimp only
      split <;> omega
    · rw [stopM, grown.heaps.first]
      unfold pageFreeNodeSize
      omega
    · rw [grown.heaps.first]
      refine PresentBetween.noted aligned below fun q multiple lower upper => ?_
      by_cases old : q < H.stop
      · exact grown.keeps q (inv.present q multiple lower old)
      · exact grown.maps q multiple (Nat.le_of_not_lt old) (stopM ▸ upper)
    · rw [entryOf_noted_isSome, grown.tables]
    · rw [entryOf_noted_other other, behind v low]
    · refine keeps.noted final entry' entry fun n member => ?_
      exact noted_mem_of_live live (grown.heap.live n member) fun same => fresh (same ▸ member)
  · -- the spare chunk serves the node
    have one : spare = 1 := by omega
    subst one
    have serves := canServe_of_spare inv.live (by omega)
    obtain ⟨node, M, t, runs, found, kernel, touch⟩ :=
      pageFree_found inv.heap (room_pos_iff.mpr serves) entry
    obtain ⟨live, fresh⟩ := found.fresh inv.heap.live
    have accessed := touch.accessed inv.heap.live
    have next : nextCount made 1 = (made, 0) := rfl
    rw [next]
    refine ⟨_, M, node :: nodes, fun depth => runs (depth + 1), found.first,
      ⟨kernel, found.live.trans (inv.live.cons _), count, Nat.zero_le _, ?_, ?_⟩, fun v => ?_,
      fun v low other => ?_, ?_⟩
    · rw [found.first, found.stop]
      exact stop
    · rw [found.first, found.stop]
      exact PresentBetween.noted aligned below (accessed.pages ▸ inv.present)
    · rw [entryOf_noted_isSome, accessed.pages]
    · rw [entryOf_noted_other other, accessed.pages]
    · refine keeps.noted (keeps.accessed holds accessed)
        (accessed.pages ▸ entry) entry fun n member => ?_
      exact noted_mem_of_live live (kernel.live n (List.mem_cons_of_mem _ member))
        fun same => fresh (same ▸ member)

/-- **It returns only if** the next page of the heap has a table, where the node needs
it, and does not lie behind the last page but one. -/
theorem NodeHeap.needs {s' : Sys PageTables} {depth : ℕ} (inv : NodeHeap s H nodes made spare)
    (below : H.stop ≤ 2 ^ 32 - pageSize)
    (returned : TrashOS.pageFree (depth + 2) p s = .ok ((), s')) (full : spare = 0) :
    H.stop + 16 ≤ 2 ^ 32 - pageSize ∧
      ∀ q, q % pageSize = 0 → H.stop ≤ q → q < H.stop + 16 → (s.pages.entryOf q).isSome := by
  have count := inv.count
  have stop := inv.stop
  change pageFreeWith (alloc (pageNew (depth + 1)) kmMinAllocSize) p s = _ at returned
  obtain ⟨node, t, served, -⟩ := Prog.bind_eq_ok.mp returned
  rcases inv.heap.alloc_cases kmMinAllocSize (show pageFreeNodeSize + 15 < 2 ^ 32 by decide) with
    ⟨-, -, s₁, kernel, touch, split⟩ | ⟨-, v, s₁, M, -, -, found, -⟩
  · rw [roundBytes_node] at split
    rw [split] at served
    obtain ⟨-, fits, tables⟩ := kernel.extend_needs (align_kmMin H.stop_aligned H.bound) le_rfl
      H.stop_aligned (by unfold pageFreeNodeSize pageSize at *; omega) served
    refine ⟨fits, fun q multiple lower upper => ?_⟩
    have there := tables q (mem_startsBetween.mpr ⟨multiple, lower, upper⟩)
    rwa [touch.pages] at there
  · rw [roundBytes_node] at found
    exact absurd (found.canServe (by decide)) (not_canServe_of_full inv.live (by omega))

end Count

end TrashOS
