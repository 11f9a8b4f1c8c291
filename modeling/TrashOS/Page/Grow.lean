import TrashOS.Heap.Loops
import TrashOS.Page.Shrink

/-!
# Growing the kernel heap

As long as the address space suffices, an extension of the kernel heap returns:
every call of `page_new` does, every page has a table, and the loop over the pages
ends.  The one exception is padding of 8 bytes, which has no room for a chunk.

What the page loop does to the pages and frames is proved once, for every property
that one turn keeps (`LoopKeeps`); `KernelMemory.extend` carries such a property
through the whole extension.

* `OpenKernel` is the state of every turn, since a turn may free a node of the page list.
* `KernelMemory.alloc_cases` — the two outcomes of a request that fits: a chunk of the free
  list, or an extension that returns.
* `KernelMemory.dies` — the exception, in which the code stops with its own message.
-/

namespace TrashOS

/-! ## The page loop -/

/-- After the `page_set_entry` of one turn. -/
def Sys.mappedTo (s : Sys PageTables) (page pma : ℕ) : Sys PageTables :=
  { s with
    pages := s.pages.write page (pma ||| pageWrite ||| pagePresent)
    log := .setEntry page (pma ||| pageWrite ||| pagePresent) :: s.log }

/-- Between `s` and `s'` the allocator accessed words other than those of the nodes,
and did nothing else. -/
structure Accessed (nodes : List ℕ) (s s' : Sys PageTables) : Prop where
  pages : s'.pages = s.pages
  mem : ∀ n ∈ nodes, s'.mem n = s.mem n
  log : ∃ es, s'.log = es ++ s.log ∧ ∀ e ∈ es, ∃ a mapped, e = .load a mapped ∨ e = .store a mapped

/-- A property of the pages `todo` the loop has yet to map, the state and the page
list is kept by every turn of the loop, and by accesses of the allocator. -/
structure LoopKeeps (I : List ℕ → Sys PageTables → List ℕ → Prop) : Prop where
  accessed : ∀ todo {s s' nodes}, I todo s nodes → Accessed nodes s s' → I todo s' nodes
  turn : ∀ {page todo s P nodes pma s' rest}, I (page :: todo) s nodes →
    NewPage s P nodes pma s' rest → s'.pages.table = s.pages.table →
    (s'.pages.entryOf page).isSome → I todo (s'.mappedTo page pma) rest

theorem LoopKeeps.and {I J : List ℕ → Sys PageTables → List ℕ → Prop} (keepsI : LoopKeeps I)
    (keepsJ : LoopKeeps J) : LoopKeeps fun todo s nodes => I todo s nodes ∧ J todo s nodes where
  accessed todo _ _ _ holds accessed :=
    ⟨keepsI.accessed todo holds.1 accessed, keepsJ.accessed todo holds.2 accessed⟩
  turn holds new table there :=
    ⟨keepsI.turn holds.1 new table there, keepsJ.turn holds.2 new table there⟩

/-- Of the pages `all`, those that are done are present; what was present still is,
every page has a table if it had one, and other pages keep their entries. -/
structure Present (all : List ℕ) (s : Sys PageTables) (todo : List ℕ) (s' : Sys PageTables)
    (_nodes : List ℕ) : Prop where
  sub : ∀ p ∈ todo, p ∈ all
  others : ∀ v, v / pageSize ∉ all.map (fun p => p / pageSize) →
    s'.pages.entryOf v = s.pages.entryOf v
  tables : ∀ v, (s'.pages.entryOf v).isSome = (s.pages.entryOf v).isSome
  keeps : ∀ v, PageLayer.mapped s.pages v = true → PageLayer.mapped s'.pages v = true
  maps : ∀ p ∈ all, p ∉ todo → PageLayer.mapped s'.pages p = true

section Loop

variable {s s' : Sys PageTables} {P : Heap} {nodes rest : List ℕ} {page pma : ℕ}

theorem Touch.accessed {lo hi : ℕ} {keep : Chunk → Prop}
    (touch : Touch (Footprint lo hi keep) s s') (kept : ∀ n ∈ nodes, keep (nodeChunk n)) :
    Accessed nodes s s' where
  pages := touch.pages
  mem n member := touch.mem n fun inside => inside.2.2 _ (kept n member) (nodeChunk_holds n).1
  log := by
    obtain ⟨es, logEq, accesses⟩ := touch.log
    refine ⟨es, logEq, fun e member => ?_⟩
    obtain ⟨a, -, shape⟩ := accesses e member
    exact ⟨a, _, shape⟩

theorem entryOf_table {pt pt' : PageTables} (same : pt'.table = pt.table) (v : ℕ) :
    pt'.entryOf v = pt.entryOf v := by
  unfold PageTables.entryOf
  rw [same]

/-- The page of a turn is present afterwards if it has a table, and no other page
changes. -/
theorem mapped_mappedTo (there : (s.pages.entryOf page).isSome) {v : ℕ} :
    PageLayer.mapped (s.mappedTo page pma).pages v =
      (decide (v / pageSize = page / pageSize) || PageLayer.mapped s.pages v) := by
  obtain ⟨old, there⟩ := Option.isSome_iff_exists.mp there
  by_cases same : v / pageSize = page / pageSize
  · rw [decide_eq_true same, Bool.true_or]
    exact PageTables.mapped_write_same there (entryPresent_or pma) same
  · rw [decide_eq_false same, Bool.false_or]
    exact PageTables.mapped_write_other same

theorem present_keeps (all : List ℕ) (s₀ : Sys PageTables) : LoopKeeps (Present all s₀) where
  accessed _ _ _ _ present accessed := by
    refine ⟨present.sub, ?_, ?_, ?_, ?_⟩
    · rw [accessed.pages]
      exact present.others
    · rw [accessed.pages]
      exact present.tables
    · rw [accessed.pages]
      exact present.keeps
    · rw [accessed.pages]
      exact present.maps
  turn {page todo s P nodes pma s' rest} present new table there := by
    refine ⟨fun p member => present.sub p (List.mem_cons_of_mem _ member), fun v other => ?_,
      fun v => ?_, fun v before => ?_, fun p member done => ?_⟩
    · have differ : v / pageSize ≠ page / pageSize := fun same =>
        other (same ▸ List.mem_map_of_mem (present.sub page List.mem_cons_self))
      refine (PageTables.entryOf_write_other differ).trans ?_
      rw [entryOf_table table]
      exact present.others v other
    · change ((s'.pages.write page _).entryOf v).isSome = _
      rw [PageTables.entryOf_write_isSome, entryOf_table table, present.tables]
    · rw [mapped_mappedTo there, PageTables.mapped_of_table table, present.keeps v before,
        Bool.or_true]
    · rw [mapped_mappedTo there]
      by_cases same : p = page
      · rw [same, decide_eq_true rfl, Bool.true_or]
      · rw [PageTables.mapped_of_table table, present.maps p member, Bool.or_true]
        exact fun listed => done ((List.mem_cons.mp listed).resolve_left same)

/-- **The page loop in an open state** returns and keeps what a turn keeps. -/
theorem mapEach_keeps {I : List ℕ → Sys PageTables → List ℕ → Prop} (keeps : LoopKeeps I) :
    ∀ (pages : List ℕ) {s : Sys PageTables} {P : Heap} {nodes : List ℕ}, OpenKernel s P nodes →
      (∀ p ∈ pages, (s.pages.entryOf p).isSome) → I pages s nodes →
      ∃ s' Q popped rest, (∀ depth, mapEach (pageNew (depth + 1)) pages s = .ok ((), s')) ∧
        Supplied s P nodes s' Q popped rest ∧ I [] s' rest
  | [], s, P, nodes, openP, _, holds =>
      ⟨s, P, [], nodes, fun _ => rfl, Supplied.refl openP, holds⟩
  | page :: pages, s, P, nodes, openP, tables, holds => by
      obtain ⟨pma, s₁, Q, popped, rest, run, supplied, table, new⟩ := pageNewWith_open openP
      obtain ⟨old, there⟩ := Option.isSome_iff_exists.mp (tables page List.mem_cons_self)
      have there₁ := (entryOf_table table page).trans there
      have set : pageSetEntry page (pma ||| pageWrite ||| pagePresent) s₁ =
          .ok ((), s₁.mappedTo page pma) := pageSetEntry_eq_ok.mpr ⟨old, there₁, rfl⟩
      have open₂ := supplied.openQ.setEntry set
      have later : ∀ p ∈ pages, ((s₁.mappedTo page pma).pages.entryOf p).isSome := by
        intro p member
        change ((s₁.pages.write page _).entryOf p).isSome
        rw [PageTables.entryOf_write_isSome, entryOf_table table]
        exact tables p (List.mem_cons_of_mem _ member)
      obtain ⟨s', R, popped', rest', runs, supplied', final⟩ :=
        mapEach_keeps keeps pages open₂ later
          (keeps.turn holds new table (Option.isSome_iff_exists.mpr ⟨old, there₁⟩))
      refine ⟨s', R, popped ++ popped', rest', fun depth => ?_, ?_, final⟩
      · have first : pageNew (depth + 1) s = .ok (pma, s₁) := run _
        unfold mapEach
        rw [Prog.bind_of_ok first, Prog.bind_of_ok set]
        exact runs depth
      · have both : Supplied s P nodes (s₁.mappedTo page pma) Q popped rest :=
          ⟨open₂, supplied.nodes, supplied.heaps, supplied.heapEnd⟩
        exact both.trans supplied'

end Loop

/-! ## The extension -/

/-- The kernel heap after an extension: the padding is free, the new block is at
`target`, its pages are present, and no page became absent. -/
structure Grown (s : Sys PageTables) (H : Heap) (nodes : List ℕ) (target n : ℕ)
    (s' : Sys PageTables) (M : Heap) (popped rest : List ℕ) : Prop where
  heap : KernelHeap s' M rest
  nodes : nodes = popped ++ rest
  heaps : Extension H target n popped M
  padding : H.stop < target → Covered M ⟨H.stop, target - H.stop - 8, true⟩
  keeps : ∀ v, PageLayer.mapped s.pages v = true → PageLayer.mapped s'.pages v = true
  maps : ∀ p, p % pageSize = 0 → target ≤ p → p < target + n + 8 →
    PageLayer.mapped s'.pages p = true
  tables : ∀ v, (s'.pages.entryOf v).isSome = (s.pages.entryOf v).isSome
  others : ∀ v, v / pageSize ∉ (startsBetween target (target + n + 8)).map (fun p => p / pageSize) →
    s'.pages.entryOf v = s.pages.entryOf v

section Extension

variable {s : Sys PageTables} {H P : Heap} {nodes : List ℕ} {alignment target n : ℕ}

/-- The padding is a free chunk. -/
theorem Padded.covered (padded : Padded H target P) (more : H.stop < target) :
    Covered P ⟨H.stop, target - H.stop - 8, true⟩ := by
  cases padded with
  | aligned eq => exact absurd eq (by omega)
  | gap closed m pos mult fits eq =>
      refine ⟨⟨H.stop, m, true⟩, by simp [Heap.pad], rfl, le_rfl, ?_⟩
      change H.stop + (target - H.stop - 8) ≤ H.stop + m
      omega

/-- The nodes that were popped are no longer in use. -/
theorem Extension.live_rest {M : Heap} {live : List Chunk} {popped rest : List ℕ}
    (extension : Extension H target n popped M)
    (perm : (liveOf H.chunks).Perm (live ++ (popped ++ rest).map nodeChunk)) :
    (liveOf M.chunks).Perm (⟨target, n, false⟩ :: live ++ rest.map nodeChunk) := by
  have all := extension.live.trans (perm.cons _)
  rw [List.map_append] at all
  have moved : ((⟨target, n, false⟩ : Chunk) :: (live ++ (popped.map nodeChunk ++
      rest.map nodeChunk))).Perm (popped.map nodeChunk ++ (⟨target, n, false⟩ :: live ++
        rest.map nodeChunk)) := by
    rw [← List.append_assoc, List.cons_append]
    refine (List.perm_append_comm.append_right _).cons _ |>.trans ?_
    rw [List.append_assoc]
    exact List.perm_middle.symm
  exact (List.perm_append_left_iff _).mp (all.trans moved)

/-- **An extension for which the address space suffices returns**, if its pages have
tables, unless its padding has room for a descriptor only. -/
theorem KernelHeap.extend {I : List ℕ → Sys PageTables → List ℕ → Prop} (keeps : LoopKeeps I)
    (kernel : KernelHeap s H nodes) (aligned : align H.stop alignment = target)
    (le : H.stop ≤ target) (multT : target % 8 = 0) (notEight : target ≠ H.stop + 8)
    (pos : 0 < n) (mult : n % 8 = 0) (fits : target + n + 8 ≤ 2 ^ 32 - pageSize)
    (tables : ∀ p ∈ startsBetween target (target + n + 8), (s.pages.entryOf p).isSome)
    (holds : I (startsBetween target (target + n + 8)) s nodes) :
    ∃ s' M popped rest,
      (∀ depth, extendHeap (pageNew (depth + 1)) alignment n s = .ok (target, s')) ∧
      Grown s H nodes target n s' M popped rest ∧ I [] s' rest := by
  have word : target + n + 8 < 2 ^ 32 := by
    unfold pageSize at fits
    omega
  rcases extendHeap_opens kernel.ctx kernel.terminal aligned le multT word with
    ⟨eight, -⟩ | ⟨P, s₁, padded, touch, -, -, openP, split⟩
  · exact absurd eight notEight
  have both := keeps.and (present_keeps (startsBetween target (target + n + 8)) s)
  have toOpen : Accessed nodes s
      { s₁ with ctxt := { s₁.ctxt with heapEnd := target + n + 8 } } := by
    have pad := touch.accessed kernel.live
    exact ⟨pad.pages, pad.mem, pad.log⟩
  have start : Present (startsBetween target (target + n + 8)) s
      (startsBetween target (target + n + 8)) s nodes :=
    ⟨fun _ => id, fun _ _ => rfl, fun _ => rfl, fun _ => id, fun p member done =>
      absurd member done⟩
  obtain ⟨s₂, Q, popped, rest, runs, supplied, final, present⟩ := mapEach_keeps both
    (startsBetween target (target + n + 8)) (kernel.opened padded touch openP)
    (by rw [toOpen.pages]; exact tables)
    (both.accessed _ ⟨holds, start⟩ toOpen)
  have loop : ∀ depth, allocMapPages (pageNew (depth + 1)) (target + n + 8) pageFuel
      (align target pageSize) { s₁ with ctxt := { s₁.ctxt with heapEnd := target + n + 8 } } =
        .ok ((), s₂) := by
    intro depth
    rw [allocMapPages_eq _ (by omega) fits (length_startsBetween_lt word.le)]
    exact runs depth
  have firstQ : Q.first = H.first := supplied.heaps.first.trans padded.first
  have stopQ : Q.stop = target := supplied.heaps.stop.trans padded.stop
  subst stopQ
  obtain ⟨s₃, finish, ctx, terminal⟩ := supplied.openQ.heap.finish pos mult word supplied.heapEnd
    (fun _ kept => kept : KeepsLive Q Q.Live)
  have accessed := finish.2.accessed supplied.openQ.live
  have live := liveOf_grow (P := Q) pos mult word
  refine ⟨s₃, Q.grow n pos mult word, popped, rest, fun depth => ?_,
    ⟨⟨ctx, fun _ => terminal, supplied.openQ.list.touch finish.2 supplied.openQ.live,
      fun m member => ?_⟩, supplied.nodes, ⟨firstQ, rfl, ?_, fun m member => ?_,
        mem_liveOf.mp (live.mem_iff.mpr List.mem_cons_self), le⟩, fun more => ?_,
      fun v before => ?_, fun p multiple lower upper => ?_, fun v => ?_, fun v other => ?_⟩,
    keeps.accessed _ final accessed⟩
  · rw [split, Prog.bind_of_ok (loop depth), Prog.bind_of_ok finish.1]
    rfl
  · refine mem_liveOf.mp (live.mem_iff.mpr (List.mem_cons_of_mem _ ?_))
    exact mem_liveOf.mpr (supplied.openQ.live m member)
  · refine (live.append_left _).trans (List.perm_middle.trans (List.Perm.cons _ ?_))
    rw [← padded.live]
    exact supplied.heaps.live
  · obtain ⟨e, memE, covers⟩ := supplied.heaps.covered m member
    exact ⟨e, List.mem_append_left _ memE, covers⟩
  · obtain ⟨e, memE, covers⟩ := supplied.heaps.covers _ (padded.covered more)
    exact ⟨e, List.mem_append_left _ memE, covers⟩
  · rw [accessed.pages]
    exact present.keeps v before
  · rw [accessed.pages]
    exact present.maps p (mem_startsBetween.mpr ⟨multiple, lower, upper⟩) List.not_mem_nil
  · rw [accessed.pages]
    exact present.tables v
  · rw [accessed.pages]
    exact present.others v other

/-- Only the pages of the state before the extension matter. -/
theorem Grown.of_pages {t s' : Sys PageTables} {M : Heap} {popped rest : List ℕ}
    (grown : Grown t H nodes target n s' M popped rest) (same : t.pages = s.pages) :
    Grown s H nodes target n s' M popped rest := by
  refine ⟨grown.heap, grown.nodes, grown.heaps, grown.padding, ?_, grown.maps, ?_, ?_⟩
  · rw [← same]
    exact grown.keeps
  · rw [← same]
    exact grown.tables
  · rw [← same]
    exact grown.others

/-- **A call that extends the heap.** -/
theorem KernelHeap.alloc_grows {I : List ℕ → Sys PageTables → List ℕ → Prop} {bytes : ℕ}
    (keeps : LoopKeeps I) (kernel : KernelHeap s H nodes) (request : bytes + 15 < 2 ^ 32)
    (extends_ : Extends s alignment bytes) (aligned : align H.stop alignment = target)
    (le : H.stop ≤ target) (multT : target % 8 = 0) (notEight : target ≠ H.stop + 8)
    (fits : target + roundBytes bytes + 8 ≤ 2 ^ 32 - pageSize)
    (tables : ∀ p ∈ startsBetween target (target + roundBytes bytes + 8),
      (s.pages.entryOf p).isSome)
    (holds : I (startsBetween target (target + roundBytes bytes + 8)) s nodes) :
    ∃ s' M popped rest,
      (∀ depth, alloc (pageNew (depth + 1)) alignment bytes s = .ok (target, s')) ∧
      Grown s H nodes target (roundBytes bytes) s' M popped rest ∧ I [] s' rest := by
  obtain ⟨pos, mult, -, -⟩ := roundBytes_spec request
  rcases kernel.alloc_cases alignment request with ⟨-, -, t, kernelT, touch, split⟩ | ⟨finds, -⟩
  · have accessed := touch.accessed kernel.live
    obtain ⟨s', M, popped, rest, runs, grown, final⟩ := kernelT.extend keeps aligned le multT
      notEight pos mult fits (accessed.pages ▸ tables) (keeps.accessed _ holds accessed)
    exact ⟨s', M, popped, rest, fun depth => (split _).trans (runs depth),
      grown.of_pages accessed.pages, final⟩
  · exact absurd extends_ finds

/-- A well-formed kernel memory stays well formed when its heap grows. -/
theorem Grown.memory {s' : Sys PageTables} {M : Heap} {popped rest : List ℕ}
    (grown : Grown s H nodes target n s' M popped rest) (memory : KernelMemory s H nodes)
    (near : ∀ p, p % pageSize = 0 → p < target → p < H.stop)
    (fits : target + n + 8 ≤ 2 ^ 32 - pageSize) : KernelMemory s' M rest where
  heap := grown.heap
  below := grown.heaps.stop ▸ fits
  present p multiple lower upper := by
    rw [grown.heaps.first] at lower
    rw [grown.heaps.stop] at upper
    by_cases old : p < target
    · exact grown.keeps p (memory.present p multiple lower (near p multiple old))
    · exact grown.maps p multiple (Nat.le_of_not_lt old) upper
  tables v lower high := by
    rw [grown.tables]
    exact memory.tables v (grown.heaps.first ▸ lower) high

end Extension

/-! ## Whole calls -/

/-- A power of two from `KM_MIN_ALLOC_SIZE` up to `PAGE_SIZE`. -/
def PageAlignment (alignment : ℕ) : Prop := ∃ k, 3 ≤ k ∧ k ≤ 12 ∧ alignment = 2 ^ k

/-- The address space below the top page has room for the request behind the heap. -/
def SpaceSuffices {π : Type} (s : Sys π) (alignment bytes : ℕ) : Prop :=
  bytes + 15 < 2 ^ 32 ∧
    alignedEnd s.ctxt.heapEnd alignment + roundBytes bytes + 8 ≤ 2 ^ 32 - pageSize

/-- Rounding up does not pass a multiple that is not below. -/
theorem alignedEnd_le {alignment stop p : ℕ} (pos : 0 < alignment) (multiple : alignment ∣ p)
    (le : stop ≤ p) : alignedEnd stop alignment ≤ p := by
  obtain ⟨q, rfl⟩ := multiple
  rw [alignedEnd, Nat.mul_comm alignment q]
  refine Nat.mul_le_mul_right _ (Nat.lt_succ_iff.mp ((Nat.div_lt_iff_lt_mul pos).mpr ?_))
  rw [Nat.succ_mul, Nat.mul_comm q]
  omega

namespace PageAlignment

variable {alignment stop : ℕ}

theorem page : PageAlignment pageSize := ⟨12, by decide, le_rfl, rfl⟩

theorem pos (aligned : PageAlignment alignment) : 0 < alignment := by
  obtain ⟨k, -, -, rfl⟩ := aligned
  exact Nat.two_pow_pos k

theorem dvd_page (aligned : PageAlignment alignment) : alignment ∣ pageSize := by
  obtain ⟨k, -, le, rfl⟩ := aligned
  exact pow_dvd_pow 2 le

theorem eight_dvd (aligned : PageAlignment alignment) : 8 ∣ alignment := by
  obtain ⟨k, le, -, rfl⟩ := aligned
  exact pow_dvd_pow 2 le

theorem align_eq (aligned : PageAlignment alignment) (stop : ℕ)
    (fits : alignedEnd stop alignment < 2 ^ 32) (word : stop < 2 ^ 32) :
    align stop alignment = alignedEnd stop alignment := by
  obtain ⟨k, -, le, rfl⟩ := aligned
  exact align_eq_roundUp (by omega) fits word

theorem le_alignedEnd (aligned : PageAlignment alignment) (stop : ℕ) :
    stop ≤ alignedEnd stop alignment := by
  have pos := aligned.pos
  have split := Nat.div_add_mod' (stop + (alignment - 1)) alignment
  have rest := Nat.mod_lt (stop + (alignment - 1)) pos
  unfold alignedEnd
  omega

/-- The padding lies on the page of the old end. -/
theorem near (aligned : PageAlignment alignment) {p : ℕ} (multiple : p % pageSize = 0)
    (below : p < alignedEnd stop alignment) : p < stop := by
  by_contra le
  have dvd := aligned.dvd_page.trans (Nat.dvd_of_mod_eq_zero multiple)
  exact absurd (alignedEnd_le aligned.pos dvd (Nat.le_of_not_lt le)) (Nat.not_le.mpr below)

end PageAlignment

section Calls

variable {s : Sys PageTables} {H M : Heap} {nodes : List ℕ} {alignment bytes v : ℕ}

/-- **`kmalloc_aligned`, when the address space suffices**: it finds a block in the free
list, which it searches for the smallest alignment only, or extends the heap. -/
theorem KernelMemory.alloc_cases (memory : KernelMemory s H nodes)
    (aligned : PageAlignment alignment) (suffices_ : SpaceSuffices s alignment bytes)
    (notEight : alignedEnd H.stop alignment ≠ H.stop + 8) :
    (alignment = kmMinAllocSize ∧ ∃ v t M,
      (∀ depth, kmallocAligned (depth + 1) bytes alignment s = .ok (v, t)) ∧
      KernelMemory t M nodes ∧ Found H (roundBytes bytes) v M ∧ Accessed nodes s t) ∨
    (∀ I, LoopKeeps I → I (startsBetween (alignedEnd H.stop alignment)
        (alignedEnd H.stop alignment + roundBytes bytes + 8)) s nodes → ∃ s' M popped rest,
      (∀ depth, kmallocAligned (depth + 1) bytes alignment s =
        .ok (alignedEnd H.stop alignment, s')) ∧
      Grown s H nodes (alignedEnd H.stop alignment) (roundBytes bytes) s' M popped rest ∧
      KernelMemory s' M rest ∧ I [] s' rest) := by
  obtain ⟨request, fits⟩ := suffices_
  rw [memory.heap.ctx.atEnd] at fits
  obtain ⟨pos, mult, -, -⟩ := roundBytes_spec request
  have bound := H.bound
  have low := H.first_le_stop
  have alignEq := aligned.align_eq H.stop (by unfold pageSize at fits; omega) H.bound
  have le := aligned.le_alignedEnd H.stop
  have multT : alignedEnd H.stop alignment % 8 = 0 :=
    Nat.mod_eq_zero_of_dvd (aligned.eight_dvd.trans (Nat.dvd_mul_left _ _))
  rcases memory.heap.alloc_cases alignment request with
    ⟨-, -, t, kernelT, touch, split⟩ | ⟨finds, v, t, M, kernelT, touch, found, split⟩
  · refine Or.inr fun I keeps holds => ?_
    have accessed := touch.accessed memory.heap.live
    have tables : ∀ p ∈ startsBetween (alignedEnd H.stop alignment)
        (alignedEnd H.stop alignment + roundBytes bytes + 8), (t.pages.entryOf p).isSome := by
      intro p member
      obtain ⟨-, lower, upper⟩ := mem_startsBetween.mp member
      rw [accessed.pages]
      exact memory.tables p (by omega) (by unfold pageSize at fits; omega)
    obtain ⟨s', M, popped, rest, runs, grown, final⟩ := kernelT.extend keeps alignEq le multT
      notEight pos mult fits tables (keeps.accessed _ holds accessed)
    have grownS := grown.of_pages accessed.pages
    exact ⟨s', M, popped, rest, fun depth => (split _).trans (runs depth), grownS,
      grownS.memory memory (fun p multiple below => aligned.near multiple below) fits, final⟩
  · have eight : alignment = kmMinAllocSize := by
      by_contra differ
      exact finds fun same => absurd same differ
    have accessed := touch.accessed memory.heap.live
    refine Or.inl ⟨eight, v, t, M, fun depth => split _, ⟨kernelT, ?_, ?_, ?_⟩, found, accessed⟩
    · rw [found.stop]
      exact memory.below
    · rw [found.first, found.stop, accessed.pages]
      exact memory.present
    · rw [found.first, accessed.pages]
      exact memory.tables

/-- **`kmalloc_aligned`, when the padding has room for a descriptor only.** -/
theorem KernelMemory.dies (memory : KernelMemory s H nodes) (aligned : PageAlignment alignment)
    (suffices_ : SpaceSuffices s alignment bytes)
    (eight : alignedEnd H.stop alignment = H.stop + 8) (depth : ℕ) :
    kmallocAligned depth bytes alignment s =
      .error (.die "alloc: fatal: free block below min size: %u\n" 8) := by
  obtain ⟨request, fits⟩ := suffices_
  rw [memory.heap.ctx.atEnd] at fits
  have bound := H.bound
  have alignEq := aligned.align_eq H.stop (by unfold pageSize at fits; omega) H.bound
  -- the smallest alignment needs no padding
  have differ : alignment ≠ kmMinAllocSize := by
    rintro rfl
    have same := (align_kmMin H.stop_aligned H.bound).symm.trans alignEq
    omega
  have multT : alignedEnd H.stop alignment % 8 = 0 :=
    Nat.mod_eq_zero_of_dvd (aligned.eight_dvd.trans (Nat.dvd_mul_left _ _))
  rcases extendHeap_opens memory.heap.ctx memory.heap.terminal alignEq (aligned.le_alignedEnd _)
    multT (n := roundBytes bytes) (by unfold pageSize at fits; omega) with
    ⟨-, dies⟩ | ⟨P, s₁, -, -, notEight, -⟩
  · unfold kmallocAligned alloc
    rw [if_pos differ]
    exact dies _
  · exact absurd eight notEight

end Calls

/-! ## New heaps -/

/-- The heap without chunks. -/
def Heap.empty (first : ℕ) (aligned : first % 8 = 0) (fits : first + 8 < 2 ^ 32) : Heap :=
  ⟨first, [], [], first + 8, aligned, rfl, fits, List.Perm.nil, List.IsChain.nil⟩

/-- After a `page_new` with an empty page list. -/
def Sys.bumped (s : Sys PageTables) : Sys PageTables :=
  { s with
    pages := { s.pages with heapEndPma := Word32.add s.pages.heapEndPma pageSize }
    log := .pageNew s.pages.heapEndPma
      { s.pages with heapEndPma := Word32.add s.pages.heapEndPma pageSize } :: s.log }

theorem newPage_bumped (s : Sys PageTables) (P : Heap) :
    NewPage s P [] s.pages.heapEndPma s.bumped [] :=
  ⟨Or.inl ⟨rfl, rfl, rfl, rfl⟩, fun _ none => absurd none List.not_mem_nil, fun _ _ => rfl, rfl,
    [], rfl, fun _ none => absurd none List.not_mem_nil⟩

/-- **`alloc_new_heap` on the kernel page layer**, before any page was freed: it maps the
page of the first descriptor to the next frame, unless it is present. -/
theorem initHeap_runs {s : Sys PageTables} {heapStart first : ℕ} (none : s.pages.freeList = 0)
    (start : align heapStart kmMinAllocSize = first) (aligned : first % 8 = 0)
    (fits : first + 8 < 2 ^ 32) (table : (s.pages.entryOf first).isSome) :
    ∃ s', (∀ depth, initHeap (pageNew (depth + 1)) heapStart s = .ok ((), s')) ∧
      KernelHeap s' (Heap.empty first aligned fits) [] ∧
      ((PageLayer.mapped s.pages first = true ∧ Accessed [] s s') ∨
        (PageLayer.mapped s.pages first = false ∧
          Accessed [] (s.bumped.mappedTo first s.pages.heapEndPma) s')) := by
  obtain ⟨entry, there⟩ := Option.isSome_iff_exists.mp table
  have check : pageIsPresent first s = .ok (entryPresent entry, s) := by
    unfold pageIsPresent
    rw [PageTables.isPresent_eq_ok.mpr ⟨entry, there, rfl⟩]
  have mappedEq : PageLayer.mapped s.pages first = entryPresent entry := by
    rw [Bool.eq_iff_iff, PageTables.mapped_iff, there]
    constructor
    · rintro ⟨e, same, present⟩
      exact Option.some.inj same ▸ present
    · intro present
      exact ⟨entry, rfl, present⟩
  have stop : Word32.add first chunkDescSize = first + 8 := Word32.add_eq fits
  -- the rest of `alloc_new_heap` and `kmalloc_init`, whatever the page is mapped to
  have finish : ∀ (t : Sys PageTables), t.pages.freeList = 0 →
      (∀ depth, mapIfAbsent (pageNew (depth + 1)) first s = .ok ((), t)) →
      ∃ s', (∀ depth, initHeap (pageNew (depth + 1)) heapStart s = .ok ((), s')) ∧
        KernelHeap s' (Heap.empty first aligned fits) [] ∧ Accessed [] t s' := by
    intro t none maps
    refine ⟨{ (t.stored first 0) with ctxt := ⟨0, heapStart, first + 8⟩ }, fun depth => ?_,
      ⟨⟨⟨?_, by simp [Heap.empty], by simp [Heap.empty], rfl⟩, start.symm, rfl,
        by simp [Heap.Closed, Heap.empty]⟩, fun chunks => absurd rfl chunks, ?_, by simp⟩,
      rfl, by simp, [_], rfl, fun e member => ⟨_, _, Or.inr (List.mem_singleton.mp member)⟩⟩
    · have made : allocNewHeap (pageNew (depth + 1)) heapStart s =
          .ok (⟨0, heapStart, first + 8⟩, t.stored first 0) := by
        unfold allocNewHeap
        rw [start]
        simp only [stop]
        rw [Prog.bind_of_ok (maps depth)]
        rfl
      exact Prog.bind_of_ok made
    · exact Function.update_self _ _ _
    · exact PointerList.singly_nil.mpr none
  cases present : entryPresent entry with
  | true =>
      obtain ⟨s', runs, heap, pages⟩ := finish s none fun depth => by
        unfold mapIfAbsent
        rw [Prog.bind_of_ok check, present]
        rfl
      exact ⟨s', runs, heap, Or.inl ⟨mappedEq.trans present, pages⟩⟩
  | false =>
      obtain ⟨s', runs, heap, pages⟩ := finish (s.bumped.mappedTo first s.pages.heapEndPma) none
        fun depth => by
          have got := pageNewWith_nil (free (pageFree depth)) none
          unfold mapIfAbsent
          rw [Prog.bind_of_ok check, present, if_pos rfl]
          rw [Prog.bind_of_ok (m := pageNew (depth + 1)) got]
          exact pageSetEntry_eq_ok.mpr ⟨entry, there, rfl⟩
      exact ⟨s', runs, heap, Or.inr ⟨mappedEq.trans present, pages⟩⟩

end TrashOS
