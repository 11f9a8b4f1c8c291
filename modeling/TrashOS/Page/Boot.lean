import TrashOS.Page.Cleanup
import TrashOS.Page.Nodes

/-!
# Freeing the pages of the init section

`page_init_cleanup` starts the kernel heap and hands the pages of the init section to
`page_free`, except for those of `init_page_struct`, which it only unmaps.  All that
the heap holds meanwhile are list nodes, so it ends where `NodeHeap` says.

`freeInitPages_runs` is the forward direction: as long as the heap finds page tables
for its pages, the loops return, and a property that the single steps keep
(`CleanupKeeps`) holds at the end.  `freeInitPages_needs` is the converse.
-/

namespace TrashOS

/-! ## Clearing a page -/

section Clear

variable {s s' : Sys PageTables} {H : Heap} {nodes : List ℕ} {i made spare : ℕ}

/-- The first `n` turns of the loop of `page_clear` store to the first `8 * n` bytes. -/
theorem pageClearWords_runs (s : Sys PageTables) {n : ℕ} (word : i + 8 * n ≤ 2 ^ 32) :
    ∃ s', Runs (Between i (i + 8 * n)) s (pageClearWords i n) () s' ∧ s'.ctxt = s.ctxt := by
  induction n with
  | zero => exact ⟨s, Runs.pure (), rfl⟩
  | succ n ih =>
      obtain ⟨t, run, ctxt⟩ := ih (by omega)
      have low : Word32.add i (8 * n) = i + 8 * n := Word32.add_eq (by omega)
      have high : Word32.add i (8 * n + 4) = i + (8 * n + 4) := Word32.add_eq (by omega)
      have both : Runs (Between i (i + 8 * (n + 1))) t (do
          store (Word32.add i (8 * n)) 0
          store (Word32.add i (8 * n + 4)) 0) () ((t.stored (i + 8 * n) 0).stored
            (i + (8 * n + 4)) 0) := by
        rw [low, high]
        exact (Runs.store ⟨by omega, by omega⟩).bind (Runs.store ⟨by omega, by omega⟩)
      refine ⟨_, (run.mono fun a inside => ?_).bind both, ctxt⟩
      exact ⟨inside.1, inside.2.trans_le (by omega)⟩

/-- A heap does not depend on the words below it. -/
theorem KernelHeap.of_above (kernel : KernelHeap s H nodes)
    (mem : ∀ a, H.first ≤ a → s'.mem a = s.mem a) (ctxt : s'.ctxt = s.ctxt)
    (list : s'.pages.freeList = s.pages.freeList) : KernelHeap s' H nodes := by
  have low := H.first_le_stop
  have above : ∀ c ∈ H.chunks, H.first + 8 ≤ c.vma := fun c member => (H.range member).1
  refine ⟨⟨kernel.ctx.rep.congr (mem _ le_rfl) (fun c member => ?_) (fun c member _ => ?_)
    (by rw [ctxt]), by rw [ctxt]; exact kernel.ctx.start, by rw [ctxt]; exact kernel.ctx.atEnd,
    kernel.ctx.closed⟩, fun chunks => ?_, ?_, kernel.live⟩
  · have := above c member
    exact ⟨mem _ (by omega), mem _ (by omega)⟩
  · have := above c member
    exact ⟨mem _ (by omega), mem _ (by omega)⟩
  · unfold TerminalClear
    rw [mem _ (by omega)]
    exact kernel.terminal chunks
  · have links := kernel.list
    unfold PageNodes at links ⊢
    rw [list]
    refine links.congr fun n member => mem _ ?_
    have := above _ (kernel.live n member).1
    change H.first + 8 ≤ n at this
    omega

/-- **`page_clear` of a page below the heap.** -/
theorem NodeHeap.pageClear (inv : NodeHeap s H nodes made spare) (below : i + pageSize ≤ H.first) :
    ∃ t, TrashOS.pageClear i s = .ok ((), t) ∧ NodeHeap t H nodes made spare ∧
      Accessed nodes s t := by
  have bound := H.bound
  have low := H.first_le_stop
  obtain ⟨t, run, ctxt⟩ := pageClearWords_runs (i := i) s (n := pageSize / 8) (by
    unfold pageSize at *
    omega)
  have mem : ∀ a, H.first ≤ a → t.mem a = s.mem a := fun a above => run.2.mem a fun inside => by
    have := inside.2
    unfold pageSize at *
    omega
  refine ⟨t, run.1, ⟨?_, inv.live, inv.count, inv.few, inv.stop, ?_⟩,
    run.2.pages, fun n member => mem n ?_, ?_⟩
  · exact inv.heap.of_above mem ctxt (by rw [run.2.pages])
  · rw [run.2.pages]
    exact inv.present
  · have range := H.range (inv.heap.live n member).1
    unfold nodeChunk at range
    dsimp only at range
    omega
  · obtain ⟨es, logEq, accesses⟩ := run.2.log
    refine ⟨es, logEq, fun e member => ?_⟩
    obtain ⟨a, -, shape⟩ := accesses e member
    exact ⟨a, _, shape⟩

end Clear

/-! ## The loops over the init pages -/

/-- The pages of the heap from `first` up to `stop` have tables, and it stays below the
top page. -/
structure HeapFits (pt : PageTables) (first stop : ℕ) : Prop where
  room : stop ≤ 2 ^ 32 - pageSize
  tables : ∀ q, q % pageSize = 0 → first ≤ q → q < stop → (pt.entryOf q).isSome

theorem HeapFits.mono {pt : PageTables} {first stop stop' : ℕ} (fits : HeapFits pt first stop)
    (le : stop' ≤ stop) : HeapFits pt first stop' :=
  ⟨le.trans fits.room, fun q multiple lower upper =>
    fits.tables q multiple lower (upper.trans_le le)⟩

/-- The first byte of `init_page_struct` and that behind it. -/
def InitRegion.structEnd (region : InitRegion) : ℕ :=
  region.initPageStruct + initPageStructPages * pageSize

/-- A page of the init section that `page_init_cleanup` frees. -/
def InitRegion.Freed (region : InitRegion) (p : ℕ) : Prop :=
  p % pageSize = 0 ∧ ((region.initStart ≤ p ∧ p < region.initPageStruct) ∨
    (region.structEnd ≤ p ∧ p < region.initBssEnd))

/-- After the installation of a page table. -/
def Sys.installed (s : Sys PageTables) (i : ℕ) (words : ℕ → ℕ) (entry : ℕ) : Sys PageTables :=
  { s with
    pages := { s.pages with
      table := Function.update s.pages.table i (some words)
      dir := Function.update s.pages.dir i entry } }

/-- A property of the state and the page list that every step of `page_init_cleanup` from
`s₀` keeps. -/
structure CleanupKeeps (region : InitRegion) (contents : ℕ → ℕ → ℕ) (s₀ : Sys PageTables)
    (I : Sys PageTables → List ℕ → Prop) : Prop where
  loop : LoopKeeps fun _ s nodes => I s nodes
  freed : ∀ {s nodes node p e}, region.Freed p → I s nodes → s.pages.entryOf p = some e →
    s₀.pages.entryOf p = some e → (∀ n ∈ nodes, (s.noted node p e).mem n = s.mem n) →
    I (s.noted node p e) (node :: nodes)
  unmapped : ∀ {s nodes p pages}, I s nodes → pageUnmap p s.pages = .ok ((), pages) →
    I { s with pages := pages } nodes
  installed : ∀ {s nodes i entry}, I s nodes → s.pages.table i = none →
    entryPresent (s₀.pages.dir i) = false → I (s.installed i (contents i) entry) nodes

theorem CleanupKeeps.freeKeeps {region : InitRegion} {contents : ℕ → ℕ → ℕ}
    {s₀ : Sys PageTables} {I : Sys PageTables → List ℕ → Prop}
    (keeps : CleanupKeeps region contents s₀ I) {p : ℕ} (freed : region.Freed p) :
    FreeKeeps I p (s₀.pages.entryOf p) :=
  ⟨keeps.loop, fun holds there original same => keeps.freed freed holds there original same⟩

/-- The trivial property. -/
theorem cleanupKeeps_true (region : InitRegion) (contents : ℕ → ℕ → ℕ) (s₀ : Sys PageTables) :
    CleanupKeeps region contents s₀ fun _ _ => True :=
  ⟨⟨fun _ _ _ _ _ _ => trivial, fun _ _ _ _ => trivial⟩, fun _ _ _ _ _ => trivial,
    fun _ _ => trivial, fun _ _ _ => trivial⟩

/-- **The state when the init pages before `i` were freed.** -/
structure Cleaning (I : Sys PageTables → List ℕ → Prop) (s₀ : Sys PageTables) (i : ℕ)
    (s : Sys PageTables) (H : Heap) (nodes : List ℕ) (count : ℕ × ℕ) : Prop where
  inv : NodeHeap s H nodes count.1 count.2
  tables : ∀ v, (s.pages.entryOf v).isSome = (s₀.pages.entryOf v).isSome
  ahead : ∀ v, i ≤ v → v < H.first → s.pages.entryOf v = s₀.pages.entryOf v
  holds : I s nodes

/-- The nodes made and spare after one more page. -/
def countStep (count : ℕ × ℕ) : ℕ × ℕ := nextCount count.1 count.2

/-- The end of a heap that starts at `first` and was made for so many nodes. -/
def nodesEnd (first : ℕ) (count : ℕ × ℕ) : ℕ := first + 8 + 16 * count.1

theorem nodesEnd_le_step (first : ℕ) (count : ℕ × ℕ) :
    nodesEnd first count ≤ nodesEnd first (countStep count) := by
  unfold nodesEnd countStep nextCount
  split <;> dsimp only <;> omega

theorem nodesEnd_le_iterate (first n : ℕ) (count : ℕ × ℕ) :
    nodesEnd first count ≤ nodesEnd first (countStep^[n] count) := by
  induction n generalizing count with
  | zero => exact le_rfl
  | succ n ih => exact (nodesEnd_le_step first count).trans (ih (countStep count))

section Loops

variable {region : InitRegion} {contents : ℕ → ℕ → ℕ} {s₀ s s' : Sys PageTables}
  {I : Sys PageTables → List ℕ → Prop} {H : Heap} {nodes : List ℕ} {i n bound fuel depth : ℕ}
  {count : ℕ × ℕ}

theorem Cleaning.stop (cleaning : Cleaning I s₀ i s H nodes count) :
    H.stop = nodesEnd H.first count := cleaning.inv.stop

/-- **One turn of the loop**: the page is cleared and freed. -/
theorem Cleaning.turn (keeps : CleanupKeeps region contents s₀ I)
    (cleaning : Cleaning I s₀ i s H nodes count) (freed : region.Freed i)
    (aligned : H.first % pageSize = 0) (below : i + pageSize ≤ H.first)
    (there : (s₀.pages.entryOf i).isSome) :
    ∃ t, pageClear i s = .ok ((), t) ∧ Cleaning I s₀ i t H nodes count ∧
      (HeapFits s₀.pages H.first (nodesEnd H.first (countStep count)) →
        ∃ s' M nodes', (∀ depth, pageFree (depth + 2) i t = .ok ((), s')) ∧
          M.first = H.first ∧ Cleaning I s₀ (i + pageSize) s' M nodes' (countStep count)) := by
  obtain ⟨t, clears, inv, accessed⟩ := cleaning.inv.pageClear below
  have cleared : Cleaning I s₀ i t H nodes count :=
    ⟨inv, accessed.pages ▸ cleaning.tables, accessed.pages ▸ cleaning.ahead,
      keeps.loop.accessed [] cleaning.holds accessed⟩
  refine ⟨t, clears, cleared, fun fits => ?_⟩
  have low : i < H.first := by
    unfold pageSize at below
    omega
  have same := cleared.ahead i le_rfl low
  have stop := cleared.stop
  have room : count.2 = 0 → H.stop + 16 ≤ 2 ^ 32 - pageSize ∧
      ∀ q, q % pageSize = 0 → H.stop ≤ q → q < H.stop + 16 → (t.pages.entryOf q).isSome := by
    intro full
    have next : nodesEnd H.first (countStep count) = H.stop + 16 := by
      rw [stop]
      unfold nodesEnd countStep nextCount
      rw [if_pos full]
      omega
    rw [next] at fits
    refine ⟨fits.room, fun q multiple lower upper => ?_⟩
    rw [cleared.tables]
    have := H.first_le_stop
    exact fits.tables q multiple (by omega) upper
  obtain ⟨s', M, nodes', runs, first, inv', tables, others, holds⟩ := inv.pageFree aligned low
    (I := I) (same ▸ keeps.freeKeeps freed) (same ▸ there) room cleared.holds
  refine ⟨s', M, nodes', runs, first, inv', fun v => (tables v).trans (cleared.tables v),
    fun v lower upper => ?_, holds⟩
  rw [first] at upper
  have other : v / pageSize ≠ i / pageSize := by
    have := freed.1
    unfold pageSize at *
    omega
  exact (others v upper other).trans (cleared.ahead v (by omega) upper)

/-- One more page is freed only if the heap still fits. -/
theorem Cleaning.grown {u : Unit} (cleaning : Cleaning I s₀ i s H nodes count)
    (fits : HeapFits s₀.pages H.first (nodesEnd H.first count))
    (frees : pageFree (depth + 2) i s = .ok (u, s')) :
    HeapFits s₀.pages H.first (nodesEnd H.first (countStep count)) := by
  have stop := cleaning.stop
  by_cases full : count.2 = 0
  · obtain ⟨room, tables⟩ := cleaning.inv.needs (stop ▸ fits.room) frees full
    have behind : nodesEnd H.first (countStep count) = H.stop + 16 := by
      rw [stop]
      unfold nodesEnd countStep nextCount
      rw [if_pos full]
      omega
    rw [behind]
    refine ⟨room, fun q multiple lower upper => ?_⟩
    by_cases old : q < H.stop
    · exact fits.tables q multiple lower (stop ▸ old)
    · rw [← cleaning.tables]
      exact tables q multiple (Nat.le_of_not_lt old) upper
  · unfold countStep nextCount
    rw [if_neg full]
    exact fits

theorem clearAndFree_succ (depth bound fuel i : ℕ) :
    clearAndFree depth bound (fuel + 1) i = if i < bound then do
        pageClear i
        pageFree depth i
        clearAndFree depth bound fuel (Word32.add i pageSize)
      else
        pure i := by
  rfl

theorem clearAndFree_stop (depth : ℕ) (done : bound ≤ i) :
    clearAndFree depth bound (fuel + 1) i s = .ok (i, s) := by
  rw [clearAndFree_succ, if_neg (Nat.not_lt.mpr done)]
  rfl

theorem clearAndFree_turn (depth : ℕ) {t : Sys PageTables} (more : i < bound)
    (clears : pageClear i s = .ok ((), t)) :
    clearAndFree depth bound (fuel + 1) i s = (do
      pageFree depth i
      clearAndFree depth bound fuel (Word32.add i pageSize)) t := by
  rw [clearAndFree_succ, if_pos more, Prog.bind_of_ok (m := pageClear i) clears]

/-- The pages from `i` up to `bound` are freed, and have tables. -/
structure ToFree (region : InitRegion) (s₀ : Sys PageTables) (first i bound : ℕ) : Prop where
  start : i % pageSize = 0
  freed : ∀ p, p % pageSize = 0 → i ≤ p → p < bound → region.Freed p
  there : ∀ p, i ≤ p → p < bound → (s₀.pages.entryOf p).isSome
  below : bound ≤ first
  aligned : first % pageSize = 0
  word : first < 2 ^ 32

/-- The first of these pages, and the others. -/
theorem ToFree.next {first : ℕ} (pages : ToFree region s₀ first i bound) (more : i < bound)
    (whole : i + pageSize ≤ bound) :
    region.Freed i ∧ (s₀.pages.entryOf i).isSome ∧ Word32.add i pageSize = i + pageSize ∧
      ToFree region s₀ first (i + pageSize) bound := by
  have start := pages.start
  have below := pages.below
  have word := pages.word
  refine ⟨pages.freed i start le_rfl more, pages.there i le_rfl more, Word32.add_eq (by omega), ?_⟩
  refine ⟨by unfold pageSize at *; omega, fun p multiple lower => pages.freed p multiple (by omega),
    fun p lower => pages.there p (by omega), below, pages.aligned, word⟩

/-- **The loop returns** if the heap fits when it has freed its `n` pages. -/
theorem Cleaning.run (keeps : CleanupKeeps region contents s₀ I) {first : ℕ}
    (reach : i + n * pageSize = bound) (enough : n < fuel)
    (pages : ToFree region s₀ first i bound) (firstH : H.first = first)
    (cleaning : Cleaning I s₀ i s H nodes count)
    (fits : HeapFits s₀.pages first (nodesEnd first (countStep^[n] count))) :
    ∃ s' M nodes', (∀ depth, clearAndFree (depth + 2) bound fuel i s = .ok (bound, s')) ∧
      M.first = first ∧ Cleaning I s₀ bound s' M nodes' (countStep^[n] count) := by
  induction n generalizing fuel i s H nodes count with
  | zero =>
      obtain ⟨fuel, rfl⟩ : ∃ f, fuel = f + 1 := ⟨fuel - 1, by omega⟩
      rw [Nat.zero_mul, Nat.add_zero] at reach
      subst reach
      exact ⟨s, H, nodes, fun depth => clearAndFree_stop _ le_rfl, firstH, cleaning⟩
  | succ n ih =>
      obtain ⟨fuel, rfl⟩ : ∃ f, fuel = f + 1 := ⟨fuel - 1, by omega⟩
      subst firstH
      rw [Nat.succ_mul] at reach
      have more : i < bound := by
        unfold pageSize at reach
        omega
      obtain ⟨freed, there, step, later⟩ := pages.next more (by omega)
      have below := pages.below
      obtain ⟨t, clears, -, turn⟩ := cleaning.turn keeps freed pages.aligned (by omega) there
      obtain ⟨s₁, M, nodes₁, frees, first₁, cleaning₁⟩ :=
        turn (fits.mono (nodesEnd_le_iterate _ n _))
      obtain ⟨s', M', nodes', runs, first', final⟩ := ih (by omega) (Nat.lt_of_succ_lt_succ enough)
        later first₁ cleaning₁ fits
      refine ⟨s', M', nodes', fun depth => ?_, first', final⟩
      rw [clearAndFree_turn _ more clears, Prog.bind_of_ok (frees depth), step]
      exact runs depth

/-- **The loop returns only if** the heap fits. -/
theorem Cleaning.needs (keeps : CleanupKeeps region contents s₀ I) {first j : ℕ}
    (reach : i + n * pageSize = bound) (pages : ToFree region s₀ first i bound)
    (firstH : H.first = first) (cleaning : Cleaning I s₀ i s H nodes count)
    (fits : HeapFits s₀.pages first (nodesEnd first count))
    (returned : clearAndFree (depth + 2) bound fuel i s = .ok (j, s')) :
    HeapFits s₀.pages first (nodesEnd first (countStep^[n] count)) := by
  induction n generalizing fuel i s H nodes count with
  | zero => exact fits
  | succ n ih =>
      cases fuel with
      | zero => cases returned
      | succ fuel =>
          subst firstH
          rw [Nat.succ_mul] at reach
          have more : i < bound := by
            unfold pageSize at reach
            omega
          obtain ⟨freed, there, step, later⟩ := pages.next more (by omega)
          have below := pages.below
          obtain ⟨t, clears, cleared, turn⟩ :=
            cleaning.turn keeps freed pages.aligned (by omega) there
          rw [clearAndFree_turn _ more clears] at returned
          obtain ⟨u, s₁, frees, returned⟩ := Prog.bind_eq_ok.mp returned
          obtain ⟨s₂, M, nodes₁, runs, first₁, cleaning₁⟩ := turn (cleared.grown fits frees)
          cases (runs depth).symm.trans frees
          rw [step] at returned
          exact ih (by omega) later first₁ cleaning₁ (cleared.grown fits frees) returned

/-- **A page of `init_page_struct`** is only unmapped. -/
theorem Cleaning.unmap (keeps : CleanupKeeps region contents s₀ I)
    (cleaning : Cleaning I s₀ i s H nodes count) (multiple : i % pageSize = 0)
    (aligned : H.first % pageSize = 0) (below : i + pageSize ≤ H.first)
    (there : (s₀.pages.entryOf i).isSome) :
    ∃ pages, pageUnmap i s.pages = .ok ((), pages) ∧
      Cleaning I s₀ (i + pageSize) { s with pages := pages } H nodes count := by
  rw [← cleaning.tables] at there
  obtain ⟨e, entry⟩ := Option.isSome_iff_exists.mp there
  have unmaps := pageUnmap_eq_ok (u := ()).mpr ⟨e, entry, rfl⟩
  have inv := cleaning.inv
  refine ⟨_, unmaps, ⟨inv.heap.congr rfl rfl rfl, inv.live, inv.count, inv.few, inv.stop, ?_⟩,
    fun v => ?_, fun v lower upper => ?_, keeps.unmapped cleaning.holds unmaps⟩
  · intro q start lower upper
    have other : q / pageSize ≠ i / pageSize := by
      unfold pageStart at lower
      unfold pageSize at *
      omega
    have kept : PageLayer.mapped (s.pages.write i (e &&& Word32.not pagePresent)) q = true := by
      rw [PageTables.mapped_write_other other]
      exact inv.present q start lower upper
    refine Eq.trans ?_ kept
    exact PageTables.mapped_of_table rfl
  · exact PageTables.entryOf_write_isSome.trans (cleaning.tables v)
  · have other : v / pageSize ≠ i / pageSize := by
      unfold pageSize at *
      omega
    refine (PageTables.entryOf_write_other other).trans (cleaning.ahead v ?_ upper)
    omega

/-- The loop over the pages of `init_page_struct`. -/
theorem Cleaning.unmapAll (keeps : CleanupKeeps region contents s₀ I) (n : ℕ)
    (cleaning : Cleaning I s₀ i s H nodes count) (multiple : i % pageSize = 0)
    (aligned : H.first % pageSize = 0) (below : i + n * pageSize ≤ H.first)
    (there : ∀ p, i ≤ p → p < i + n * pageSize → (s₀.pages.entryOf p).isSome) :
    ∃ s', unmapPages n i s = .ok (i + n * pageSize, s') ∧
      Cleaning I s₀ (i + n * pageSize) s' H nodes count := by
  induction n generalizing i s with
  | zero =>
      rw [Nat.zero_mul, Nat.add_zero]
      exact ⟨s, rfl, cleaning⟩
  | succ n ih =>
      rw [Nat.succ_mul] at below there ⊢
      have bound := H.bound
      have low := H.first_le_stop
      have next : Word32.add i pageSize = i + pageSize := Word32.add_eq (by omega)
      obtain ⟨pages, unmaps, cleaning₁⟩ := cleaning.unmap keeps multiple aligned (by omega)
        (there i le_rfl (by unfold pageSize; omega))
      have first : onPages (pageUnmap i) s = .ok ((), { s with pages := pages }) :=
        onPages_eq_ok.mpr ⟨pages, unmaps, rfl⟩
      obtain ⟨s', runs, final⟩ := ih cleaning₁ (by unfold pageSize at *; omega) (by omega)
        fun p lower upper => there p (by omega) (by omega)
      have reach : i + pageSize + n * pageSize = i + (n * pageSize + pageSize) := by omega
      rw [reach] at runs final
      refine ⟨s', ?_, final⟩
      unfold unmapPages
      rw [Prog.bind_of_ok first, next]
      exact runs

end Loops

/-! ## What `init_map_kernel` leaves -/

/-- The number of init pages that are freed: those before `init_page_struct` and those
behind it. -/
def InitRegion.pages (region : InitRegion) : ℕ :=
  (region.initBssEnd - region.structEnd) / pageSize +
    (region.initPageStruct - region.initStart) / pageSize

/-- The layout of the linker script: the init section lies below the kernel, in whole
pages, and the heap starts behind it and below the page of the stack. -/
structure InitRegion.Layout (region : InitRegion) : Prop where
  start : region.initStart % pageSize = 0
  struct : region.initPageStruct % pageSize = 0
  bssEnd : region.initBssEnd % pageSize = 0
  heapEnd : region.heapEndVma % pageSize = 0
  startStruct : region.initStart ≤ region.initPageStruct
  structBss : region.structEnd ≤ region.initBssEnd
  bssKernel : region.initBssEnd ≤ kernelStartVma
  kernelHeap : kernelStartVma < region.heapEndVma
  heapStack : region.heapEndVma < 2 ^ 32 - pageSize

/-- **The page tables `init_map_kernel` leaves**: there is a table for the init section, for
the kernel up to the start of the heap and for the page of the stack, and for no other
page of the kernel region. -/
structure BootTables (region : InitRegion) (s : Sys PageTables) : Prop where
  layout : region.Layout
  list : s.pages.freeList = 0
  init : ∀ v, region.initStart ≤ v → v < region.initBssEnd → (s.pages.entryOf v).isSome
  kernel : ∀ idx, pageGetDirIdx kernelStartVma ≤ idx → idx < pageEntries →
    ((s.pages.table idx).isSome ↔
      idx ≤ pageGetDirIdx (region.heapEndVma - 1) ∨ idx = pageEntries - 1)
  dir : ∀ idx, pageGetDirIdx kernelStartVma ≤ idx → idx < pageEntries →
    entryPresent (s.pages.dir idx) = (s.pages.table idx).isSome

namespace InitRegion.Layout

variable {region : InitRegion}

theorem structMod (layout : region.Layout) : region.structEnd % pageSize = 0 := by
  have struct := layout.struct
  unfold structEnd
  exact (Nat.add_mul_mod_self_right _ _ _).trans struct

theorem before (layout : region.Layout) :
    region.initStart + (region.initPageStruct - region.initStart) / pageSize * pageSize =
      region.initPageStruct := by
  have start := layout.start
  have struct := layout.struct
  have le := layout.startStruct
  unfold pageSize at *
  omega

theorem behind (layout : region.Layout) :
    region.structEnd + (region.initBssEnd - region.structEnd) / pageSize * pageSize =
      region.initBssEnd := by
  have struct := layout.structMod
  have bssEnd := layout.bssEnd
  have le := layout.structBss
  unfold pageSize at *
  omega

theorem pages_lt_fuel (lo : ℕ) {hi : ℕ} (word : hi ≤ 2 ^ 32) : (hi - lo) / pageSize < pageFuel := by
  unfold pageFuel pageSize
  omega

/-- There are fewer pages than turns the loops are given. -/
theorem enough (layout : region.Layout) :
    (region.initPageStruct - region.initStart) / pageSize < pageFuel ∧
      (region.initBssEnd - region.structEnd) / pageSize < pageFuel := by
  have word : region.initBssEnd ≤ 2 ^ 32 := layout.bssKernel.trans (by decide)
  have inside : region.initPageStruct ≤ region.structEnd := Nat.le_add_right _ _
  exact ⟨pages_lt_fuel _ ((inside.trans layout.structBss).trans word), pages_lt_fuel _ word⟩

end InitRegion.Layout

section Boot

variable {region : InitRegion} {contents : ℕ → ℕ → ℕ} {s₀ s s' : Sys PageTables}
  {I : Sys PageTables → List ℕ → Prop} {H : Heap} {nodes : List ℕ} {depth : ℕ}

/-- The pages before `init_page_struct`. -/
theorem BootTables.before (boot : BootTables region s₀) :
    ToFree region s₀ region.heapEndVma region.initStart region.initPageStruct := by
  obtain ⟨start, struct, bssEnd, heapEnd, le, behind, kernel, heap, stack⟩ := boot.layout
  unfold InitRegion.structEnd at behind
  refine ⟨start, fun p multiple lower upper => ⟨multiple, Or.inl ⟨lower, upper⟩⟩,
    fun p lower upper => boot.init p lower (by omega), by omega, heapEnd, by omega⟩

/-- The pages behind it. -/
theorem BootTables.behind (boot : BootTables region s₀) :
    ToFree region s₀ region.heapEndVma region.structEnd region.initBssEnd := by
  have struct := boot.layout.structMod
  obtain ⟨-, -, -, heapEnd, le, behind, kernel, heap, stack⟩ := boot.layout
  have inside : region.initPageStruct ≤ region.structEnd := Nat.le_add_right _ _
  refine ⟨struct, fun p multiple lower upper => ⟨multiple, Or.inr ⟨lower, upper⟩⟩,
    fun p lower upper => boot.init p (by omega) upper, by omega, heapEnd, by omega⟩

/-- **`kmalloc_init`** makes a heap without nodes, if its page has a table. -/
theorem BootTables.start (boot : BootTables region s₀) (keeps : CleanupKeeps region contents s₀ I)
    (holds : I s₀ []) (table : (s₀.pages.entryOf region.heapEndVma).isSome) :
    ∃ s H, (∀ depth, initHeap (pageNew (depth + 1)) region.heapEndVma s₀ = .ok ((), s)) ∧
      H.first = region.heapEndVma ∧ Cleaning I s₀ region.initStart s H [] (0, 0) := by
  obtain ⟨-, -, -, heapEnd, -, -, -, -, stack⟩ := boot.layout
  have eight : region.heapEndVma % 8 = 0 := by
    unfold pageSize at heapEnd
    omega
  have word : region.heapEndVma + 8 < 2 ^ 32 := by
    unfold pageSize at stack
    omega
  obtain ⟨s, runs, heap, pages⟩ := initHeap_runs boot.list (align_kmMin eight (by omega)) eight
    word table
  refine ⟨s, Heap.empty region.heapEndVma eight word, runs, rfl, ⟨heap, List.Perm.nil, rfl,
    Nat.zero_le _, rfl, ?_⟩, fun v => ?_, fun v _ upper => ?_, ?_⟩
  · intro q multiple lower upper
    change pageStart region.heapEndVma ≤ q at lower
    change q < region.heapEndVma + 8 at upper
    have here : q / pageSize = region.heapEndVma / pageSize := by
      unfold pageStart at lower
      unfold pageSize at *
      omega
    rw [PageTables.mapped_congr here]
    rcases pages with ⟨present, accessed⟩ | ⟨-, accessed⟩
    · rw [accessed.pages]
      exact present
    · rw [accessed.pages, mapped_mappedTo (s := s₀.bumped) table, decide_eq_true rfl]
      rfl
  · rcases pages with ⟨-, accessed⟩ | ⟨-, accessed⟩
    · rw [accessed.pages]
    · rw [accessed.pages]
      exact PageTables.entryOf_write_isSome
  · rcases pages with ⟨-, accessed⟩ | ⟨-, accessed⟩
    · rw [accessed.pages]
    · rw [accessed.pages]
      refine PageTables.entryOf_write_other ?_
      change v < region.heapEndVma at upper
      unfold pageSize at *
      omega
  · rcases pages with ⟨-, accessed⟩ | ⟨-, accessed⟩
    · exact keeps.loop.accessed [] holds accessed
    · refine keeps.loop.accessed [] ?_ accessed
      exact @LoopKeeps.turn _ keeps.loop region.heapEndVma [] _ _ _ _ _ _ holds
        (newPage_bumped s₀ (Heap.empty region.heapEndVma eight word)) rfl table

/-- `kmalloc_init` returns only if the first page of the heap has a table. -/
theorem BootTables.start_needs (boot : BootTables region s₀) {supplier : KM PageTables ℕ} {u : Unit}
    (returned : initHeap supplier region.heapEndVma s₀ = .ok (u, s)) :
    (s₀.pages.entryOf region.heapEndVma).isSome := by
  obtain ⟨-, -, -, heapEnd, -, -, -, -, stack⟩ := boot.layout
  have eight : region.heapEndVma % 8 = 0 := by
    unfold pageSize at heapEnd
    omega
  obtain ⟨ctxt, s₁, made, -⟩ := Prog.bind_eq_ok.mp returned
  unfold allocNewHeap at made
  rw [align_kmMin eight (by omega)] at made
  obtain ⟨u₁, s₂, mapped, -⟩ := Prog.bind_eq_ok.mp made
  obtain ⟨present, s₃, asked, -⟩ := Prog.bind_eq_ok.mp mapped
  by_contra missing
  have none : s₀.pages.entryOf region.heapEndVma = Option.none := by simpa using missing
  unfold pageIsPresent at asked
  have stuck : PageLayer.isPresent region.heapEndVma s₀.pages =
      .error (.noTable region.heapEndVma) := by
    change (pageGetEntry _ _).map _ = _
    unfold pageGetEntry
    rw [none]
    rfl
  rw [stuck] at asked
  cases asked

/-- The first page of the heap is all an empty heap needs. -/
theorem BootTables.fits_start (boot : BootTables region s₀)
    (table : (s₀.pages.entryOf region.heapEndVma).isSome) :
    HeapFits s₀.pages region.heapEndVma (nodesEnd region.heapEndVma (0, 0)) := by
  obtain ⟨-, -, -, heapEnd, -, -, -, -, stack⟩ := boot.layout
  have stop : nodesEnd region.heapEndVma (0, 0) = region.heapEndVma + 8 := rfl
  rw [stop]
  refine ⟨by unfold pageSize at *; omega, fun q multiple lower upper => ?_⟩
  have here : q / pageSize = region.heapEndVma / pageSize := by
    unfold pageSize at *
    omega
  rw [PageTables.entryOf_congr here]
  exact table

/-- The end of the heap after the init pages were freed. -/
def InitRegion.cleanEnd (region : InitRegion) : ℕ :=
  nodesEnd region.heapEndVma (countStep^[region.pages] (0, 0))

/-- **The init pages are freed** if the heap of their nodes fits. -/
theorem freeInitPages_runs (boot : BootTables region s₀)
    (keeps : CleanupKeeps region contents s₀ I) (holds : I s₀ [])
    (fits : HeapFits s₀.pages region.heapEndVma region.cleanEnd) :
    ∃ s' H nodes, (∀ depth, freeInitPages (depth + 2) region s₀ = .ok ((), s')) ∧
      H.first = region.heapEndVma ∧ H.stop = region.cleanEnd ∧
      Cleaning I s₀ region.initBssEnd s' H nodes (countStep^[region.pages] (0, 0)) := by
  have layout := boot.layout
  obtain ⟨enough, enough'⟩ := layout.enough
  have low : region.heapEndVma < region.cleanEnd := by
    unfold InitRegion.cleanEnd nodesEnd
    omega
  obtain ⟨s₁, H₁, starts, first₁, cleaning₁⟩ := boot.start keeps holds
    (fits.tables _ layout.heapEnd le_rfl low)
  unfold InitRegion.cleanEnd InitRegion.pages at fits ⊢
  rw [Function.iterate_add_apply] at fits ⊢
  obtain ⟨s₂, H₂, nodes₂, runs₂, first₂, cleaning₂⟩ := cleaning₁.run keeps layout.before enough
    boot.before first₁ (fits.mono (nodesEnd_le_iterate _ _ _))
  have behind := layout.structBss
  obtain ⟨s₃, runs₃, cleaning₃⟩ := cleaning₂.unmapAll keeps initPageStructPages layout.struct
    (first₂ ▸ layout.heapEnd) (first₂ ▸ behind.trans boot.behind.below)
    fun p lower upper => boot.init p (layout.startStruct.trans lower) (upper.trans_le behind)
  obtain ⟨s', H, nodes, runs, first, final⟩ := cleaning₃.run keeps layout.behind enough'
    boot.behind first₂ fits
  refine ⟨s', H, nodes, fun depth => ?_, first, first ▸ final.stop, final⟩
  unfold freeInitPages
  rw [Prog.bind_of_ok (starts (depth + 1)), Prog.bind_of_ok (runs₂ depth), Prog.bind_of_ok runs₃]
  exact Prog.bind_of_ok (runs depth)

/-- **They are freed only if** it fits. -/
theorem freeInitPages_needs {u : Unit} (boot : BootTables region s₀)
    (returned : freeInitPages (depth + 2) region s₀ = .ok (u, s')) :
    HeapFits s₀.pages region.heapEndVma region.cleanEnd := by
  have layout := boot.layout
  obtain ⟨enough, -⟩ := layout.enough
  have keeps := cleanupKeeps_true region (fun _ _ => 0) s₀
  obtain ⟨u₁, s₁, starts, returned⟩ := Prog.bind_eq_ok.mp returned
  obtain ⟨j, s₂, frees₂, returned⟩ := Prog.bind_eq_ok.mp returned
  obtain ⟨j', s₃, unmaps, returned⟩ := Prog.bind_eq_ok.mp returned
  obtain ⟨j'', s₄, frees₄, -⟩ := Prog.bind_eq_ok.mp returned
  have table := boot.start_needs starts
  obtain ⟨t₁, H₁, runs₁, first₁, cleaning₁⟩ := boot.start keeps trivial table
  cases (runs₁ (depth + 1)).symm.trans starts
  have fits₂ :=
    cleaning₁.needs keeps layout.before boot.before first₁ (boot.fits_start table) frees₂
  obtain ⟨t₂, H₂, nodes₂, runs₂, first₂, cleaning₂⟩ := cleaning₁.run keeps layout.before enough
    boot.before first₁ fits₂
  cases (runs₂ depth).symm.trans frees₂
  have behind := layout.structBss
  obtain ⟨t₃, runs₃, cleaning₃⟩ := cleaning₂.unmapAll keeps initPageStructPages layout.struct
    (first₂ ▸ layout.heapEnd) (first₂ ▸ behind.trans boot.behind.below)
    fun p lower upper => boot.init p (layout.startStruct.trans lower) (upper.trans_le behind)
  cases runs₃.symm.trans unmaps
  unfold InitRegion.cleanEnd InitRegion.pages
  rw [Function.iterate_add_apply]
  exact cleaning₃.needs keeps layout.behind boot.behind first₂ fits₂ frees₄

end Boot

end TrashOS
