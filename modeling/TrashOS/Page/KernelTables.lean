import TrashOS.Init.Handed
import TrashOS.Page.Run

/-!
# The page tables of the kernel region

The last loop of `page_init_cleanup` gives every directory entry of the kernel region
a page table, each in a page of its own from `kalloc`.  A table takes two pages of the
heap: its own, and one for the descriptor behind it.  The pages must have tables
already, so the two pages of the first new table must lie in the part of the kernel
region that `init_map_kernel` mapped, while the others may use the region of the
first.

`pageInitCleanup_iff` says for which heap starts and how many init pages this works, when
every table that was made is found.  `bootCleanup_iff` is the result for the layout of a
kernel, from `init_map_kernel` on: its page tables have to be covered as well, or the table
for the start of the heap is one that cannot be reached.
-/

namespace TrashOS

/-! ## The condition -/

/-- The first address behind the tables `init_map_kernel` makes for the kernel. -/
def InitRegion.mappedEnd (region : InitRegion) : ℕ :=
  (pageGetDirIdx (region.heapEndVma - 1) + 1) * (pageEntries * pageSize)

/-- Some directory entry of the kernel region has no table yet. -/
def InitRegion.LacksTables (region : InitRegion) : Prop :=
  pageGetDirIdx (region.heapEndVma - 1) + 2 < pageEntries

instance (region : InitRegion) : Decidable region.LacksTables :=
  inferInstanceAs (Decidable (_ < _))

/-- The page where the first new table goes. -/
def InitRegion.firstTable (region : InitRegion) : ℕ := alignedEnd region.cleanEnd pageSize

/-- **The heap stays where it has page tables**: with the nodes of the init pages it ends
below the top page, and where tables are missing, the first new one and its
descriptor lie below the end of the part that is mapped, with padding before it that
has room for a chunk. -/
def InitRegion.Fits (region : InitRegion) : Prop :=
  if region.LacksTables then
    region.cleanEnd % pageSize ≠ pageSize - 8 ∧
      region.firstTable + 2 * pageSize ≤ region.mappedEnd
  else
    region.cleanEnd ≤ 2 ^ 32 - pageSize

instance (region : InitRegion) : Decidable region.Fits :=
  inferInstanceAs (Decidable (if region.LacksTables then _ ≠ _ ∧ _ ≤ _ else _ ≤ _))

section Condition

variable {region : InitRegion} {s₀ : Sys PageTables} {q : ℕ}

/-- An address lies in the part that is mapped if and only if its directory index is one
of those. -/
theorem lt_mappedEnd_iff : q < region.mappedEnd ↔
    pageGetDirIdx q ≤ pageGetDirIdx (region.heapEndVma - 1) := by
  unfold InitRegion.mappedEnd
  rw [pageGetDirIdx_eq q]
  unfold pageEntries pageSize
  omega

/-- Which pages of the heap have tables. -/
theorem BootTables.heap_tables (boot : BootTables region s₀) (lower : region.heapEndVma ≤ q)
    (word : q < 2 ^ 32) :
    (s₀.pages.entryOf q).isSome ↔
      q < region.mappedEnd ∨ pageGetDirIdx q = pageEntries - 1 := by
  have heap := boot.layout.kernelHeap
  have kernel : pageGetDirIdx kernelStartVma ≤ pageGetDirIdx q := by
    rw [pageGetDirIdx_eq, pageGetDirIdx_eq]
    exact Nat.div_le_div_right (Nat.div_le_div_right (heap.le.trans lower))
  have few : pageGetDirIdx q < pageEntries := by
    rw [pageGetDirIdx_eq]
    unfold pageEntries pageSize
    omega
  rw [lt_mappedEnd_iff, ← boot.kernel _ kernel few]
  unfold PageTables.entryOf
  rw [Option.isSome_map]

/-- The heap fits while it is in the part that is mapped. -/
theorem BootTables.fits_of_le (boot : BootTables region s₀) {stop : ℕ}
    (le : stop ≤ 2 ^ 32 - pageSize) (inside : stop ≤ region.mappedEnd) :
    HeapFits s₀.pages region.heapEndVma stop := by
  refine ⟨le, fun q _ lower upper => ?_⟩
  refine (boot.heap_tables lower ?_).mpr (Or.inl (upper.trans_le inside))
  unfold pageSize at le
  omega

/-- The nodes of the init pages fit. -/
theorem BootTables.fits_cleanEnd (boot : BootTables region s₀) (fits : region.Fits) :
    HeapFits s₀.pages region.heapEndVma region.cleanEnd := by
  unfold InitRegion.Fits at fits
  by_cases lacks : region.LacksTables
  · rw [if_pos lacks] at fits
    have le : region.cleanEnd ≤ region.firstTable := PageAlignment.page.le_alignedEnd _
    have inside : region.cleanEnd ≤ region.mappedEnd := by omega
    refine boot.fits_of_le (inside.trans ?_) inside
    unfold InitRegion.LacksTables at lacks
    unfold InitRegion.mappedEnd
    unfold pageEntries pageSize at *
    omega
  · -- every directory entry has a table
    rw [if_neg lacks] at fits
    refine ⟨fits, fun q multiple lower upper => ?_⟩
    have word : q < 2 ^ 32 := by
      unfold pageSize at fits
      omega
    refine (boot.heap_tables lower word).mpr ?_
    rw [lt_mappedEnd_iff, pageGetDirIdx_eq q]
    unfold InitRegion.LacksTables at lacks
    unfold pageEntries pageSize at *
    omega

end Condition

/-! ## The directory until then -/

namespace Traced

theorem initHeap {supplier : KM PageTables ℕ} (traced : Traced supplier) (heapStart : ℕ) :
    Traced (TrashOS.initHeap supplier heapStart) := by
  refine .bind (.bind (.bind (fun s a s' returned => ?_) fun _ => .ite (.bind traced fun _ =>
    .pageSetEntry _ _) (.pure _)) fun _ => .bind (.store _ _) fun _ => .pure _)
    fun _ s a s' returned => ?_
  · unfold pageIsPresent at returned
    split at returned
    · cases returned
      exact TracedTables.refl _
    · cases returned
  · cases returned
    exact TracedTables.refl _

theorem pageClearWords (vma : ℕ) : ∀ n, Traced (TrashOS.pageClearWords vma n)
  | 0 => .pure _
  | n + 1 => .bind (pageClearWords vma n) fun _ => .bind (.store _ _) fun _ => .store _ _

theorem clearAndFree (depth bound : ℕ) : ∀ fuel i, Traced (TrashOS.clearAndFree depth bound fuel i)
  | 0, _ => .stop _
  | fuel + 1, i => by
      rw [clearAndFree_succ]
      exact .ite (.bind (.pageClearWords i _) fun _ => .bind ((Traced.pageLayer depth).2 i) fun _ =>
        clearAndFree depth bound fuel _) (.pure _)

theorem unmapPages : ∀ n i, Traced (TrashOS.unmapPages n i)
  | 0, _ => .pure _
  | n + 1, _ => .bind (.onPages (.pageUnmap _)) fun _ => unmapPages n _

theorem freeInitPages (depth : ℕ) (region : InitRegion) :
    Traced (TrashOS.freeInitPages depth region) :=
  .bind (.initHeap (Traced.pageLayer depth).1 _) fun _ => .bind (.clearAndFree _ _ _ _) fun _ =>
    .bind (.unmapPages _ _) fun _ => .bind (.clearAndFree _ _ _ _) fun _ => .pure _

end Traced

/-! ## Installing the tables -/

/-- **The state after the first `j` turns**: the directory entries up to there have tables,
and the blocks `made` are those of the new ones. -/
structure Installing (I : Sys PageTables → List ℕ → Prop) (region : InitRegion)
    (s₀ : Sys PageTables) (j : ℕ) (s : Sys PageTables) (H : Heap) (nodes : List ℕ)
    (made : List Chunk) : Prop where
  heap : KernelHeap s H nodes
  live : (liveOf H.chunks).Perm (made ++ nodes.map nodeChunk)
  below : H.stop ≤ 2 ^ 32 - pageSize
  present : PresentBetween s.pages H.first H.stop
  first : H.first = region.heapEndVma
  done : ∀ i < j, entryPresent (s.pages.dir (pageGetDirIdx kernelStartVma + i)) = true ∧
    (s.pages.table (pageGetDirIdx kernelStartVma + i)).isSome
  later : ∀ i, j ≤ i → s.pages.dir (pageGetDirIdx kernelStartVma + i) =
      s₀.pages.dir (pageGetDirIdx kernelStartVma + i) ∧
    (s.pages.table (pageGetDirIdx kernelStartVma + i)).isSome =
      (s₀.pages.table (pageGetDirIdx kernelStartVma + i)).isSome
  few : made.length ≤ j
  start : made = [] → H.stop = region.cleanEnd
  more : made ≠ [] → H.stop + (pageSize - 8) = region.firstTable + made.length * (2 * pageSize) ∧
    pageGetDirIdx (region.heapEndVma - 1) + 1 < pageGetDirIdx kernelStartVma + j
  holds : I s nodes

section Install

variable {region : InitRegion} {contents : ℕ → ℕ → ℕ} {s₀ s s' : Sys PageTables}
  {I : Sys PageTables → List ℕ → Prop} {H : Heap} {nodes : List ℕ} {made : List Chunk}
  {i j q depth entry : ℕ} {words : ℕ → ℕ}

/-- A new table changes the entries of no page that had a table. -/
theorem entryOf_installed (words : ℕ → ℕ) (entry : ℕ) (fresh : s.pages.table i = none)
    (there : (s.pages.entryOf q).isSome) :
    (s.installed i words entry).pages.entryOf q = s.pages.entryOf q := by
  unfold PageTables.entryOf at there ⊢
  have other : pageGetDirIdx q ≠ i := by
    rintro rfl
    rw [fresh] at there
    cases there
  change Option.map _ (Function.update s.pages.table i _ (pageGetDirIdx q)) = _
  rw [Function.update_of_ne other]

/-- So the heap stays where it is. -/
theorem PresentBetween.installed {first stop : ℕ} (fresh : s.pages.table i = none)
    (present : PresentBetween s.pages first stop) :
    PresentBetween (s.installed i words entry).pages first stop := by
  intro p multiple lower upper
  obtain ⟨e, there, mapped⟩ := PageTables.mapped_iff.mp (present p multiple lower upper)
  have same := entryOf_installed words entry fresh
    (Option.isSome_iff_exists.mpr ⟨e, there⟩)
  exact PageTables.mapped_iff.mpr ⟨e, same.trans there, mapped⟩

theorem entryOf_isSome (pt : PageTables) (v : ℕ) :
    (pt.entryOf v).isSome = (pt.table (pageGetDirIdx v)).isSome := Option.isSome_map

theorem pageGetDirIdx_region (idx : ℕ) : pageGetDirIdx (idx * (pageEntries * pageSize)) = idx := by
  rw [pageGetDirIdx_eq]
  unfold pageEntries pageSize
  omega

/-- Before the first turn. -/
theorem Cleaning.installing {count : ℕ × ℕ} (cleaning : Cleaning I s₀ i s H nodes count)
    (first : H.first = region.heapEndVma) (stop : H.stop = region.cleanEnd)
    (below : H.stop ≤ 2 ^ 32 - pageSize) (dir : s.pages.dir = s₀.pages.dir) :
    Installing I region s₀ 0 s H nodes [] := by
  have tables : ∀ idx, (s.pages.table idx).isSome = (s₀.pages.table idx).isSome := by
    intro idx
    have same := cleaning.tables (idx * (pageEntries * pageSize))
    rwa [entryOf_isSome, entryOf_isSome, pageGetDirIdx_region] at same
  exact ⟨cleaning.inv.heap, cleaning.inv.live, below, cleaning.inv.present, first,
    fun _ none => absurd none (Nat.not_lt_zero _), fun i _ => ⟨congrFun dir _, tables _⟩, le_rfl,
    fun _ => stop, fun none => absurd rfl none, cleaning.holds⟩

/-- A directory entry without a table lies behind those `init_map_kernel` made, and is not
the last one. -/
theorem BootTables.missing (boot : BootTables region s₀)
    (few : pageGetDirIdx kernelStartVma + j < pageEntries)
    (absent : entryPresent (s₀.pages.dir (pageGetDirIdx kernelStartVma + j)) = false) :
    (s₀.pages.table (pageGetDirIdx kernelStartVma + j)).isSome = false ∧
      pageGetDirIdx (region.heapEndVma - 1) < pageGetDirIdx kernelStartVma + j ∧
      pageGetDirIdx kernelStartVma + j + 1 < pageEntries := by
  have low : pageGetDirIdx kernelStartVma ≤ pageGetDirIdx kernelStartVma + j := Nat.le_add_right _ _
  have table := (boot.dir _ low few).symm.trans absent
  have lacks := mt (boot.kernel _ low few).mpr (by rw [table]; exact Bool.false_ne_true)
  rw [not_or] at lacks
  exact ⟨table, Nat.lt_of_not_le lacks.1, by omega⟩

/-- **Where the next table goes**, and that its two pages have tables. -/
theorem Installing.place (boot : BootTables region s₀) (fits : region.Fits)
    (installing : Installing I region s₀ j s H nodes made)
    (few : pageGetDirIdx kernelStartVma + j < pageEntries)
    (absent : entryPresent (s₀.pages.dir (pageGetDirIdx kernelStartVma + j)) = false) :
    ∃ target, target = region.firstTable + made.length * (2 * pageSize) ∧
      align H.stop pageSize = target ∧ H.stop ≤ target ∧ target % pageSize = 0 ∧
      (∀ p, p % pageSize = 0 → p < target → p < H.stop) ∧ target ≠ H.stop + 8 ∧
      target + pageSize + 8 ≤ 2 ^ 32 - pageSize ∧
      ∀ p, H.stop ≤ p → p < target + pageSize + 8 → (s.pages.entryOf p).isSome := by
  obtain ⟨-, behind, last⟩ := boot.missing few absent
  have lacks : region.LacksTables := by
    unfold InitRegion.LacksTables
    omega
  unfold InitRegion.Fits at fits
  rw [if_pos lacks] at fits
  obtain ⟨notEight, room⟩ := fits
  have kernel : pageGetDirIdx kernelStartVma = 896 := by decide +kernel
  have heap := boot.layout.kernelHeap
  have first := installing.first
  have low := H.first_le_stop
  have length := installing.few
  -- the end of the heap lies on the page before the next table
  have stops : alignedEnd H.stop pageSize = region.firstTable + made.length * (2 * pageSize) ∧
      H.stop % pageSize ≠ pageSize - 8 := by
    by_cases none : made = []
    · rw [installing.start none, none, List.length_nil, Nat.zero_mul, Nat.add_zero]
      exact ⟨rfl, notEight⟩
    · have stop := (installing.more none).1
      unfold InitRegion.firstTable alignedEnd at *
      unfold pageSize at *
      omega
  obtain ⟨aligned, eight⟩ := stops
  have high : region.mappedEnd ≤ 1022 * (pageEntries * pageSize) := by
    unfold InitRegion.mappedEnd
    exact Nat.mul_le_mul_right _ (by unfold InitRegion.LacksTables pageEntries at lacks; omega)
  have roomy : region.firstTable + made.length * (2 * pageSize) + pageSize + 8 ≤
      region.mappedEnd + made.length * (2 * pageSize) := by
    unfold pageSize at *
    omega
  have below : region.mappedEnd + made.length * (2 * pageSize) <
      region.mappedEnd + pageEntries * pageSize ∧
        region.mappedEnd + made.length * (2 * pageSize) ≤ 2 ^ 32 - pageSize := by
    unfold pageEntries at last
    unfold pageEntries pageSize at *
    omega
  have le := PageAlignment.page.le_alignedEnd H.stop
  have multiple : alignedEnd H.stop pageSize % pageSize = 0 := Nat.mul_mod_left _ _
  have near : ∀ p, p % pageSize = 0 → p < alignedEnd H.stop pageSize → p < H.stop :=
    fun p start => PageAlignment.page.near start
  rw [aligned] at le multiple near
  refine ⟨_, rfl, ?_, le, multiple, near, fun same => eight ?_, by omega, fun p lower upper => ?_⟩
  · rw [align_page_eq (by omega), aligned]
  · rw [same] at multiple
    unfold pageSize at *
    omega
  · -- its table is one of those that are done
    have start : pageGetDirIdx kernelStartVma ≤ pageGetDirIdx p := by
      rw [pageGetDirIdx_eq, pageGetDirIdx_eq]
      exact Nat.div_le_div_right (Nat.div_le_div_right (by omega))
    have early : pageGetDirIdx p < pageGetDirIdx kernelStartVma + j := by
      by_cases none : made = []
      · rw [none, List.length_nil, Nat.zero_mul] at roomy upper
        exact (lt_mappedEnd_iff.mp (by omega)).trans_lt behind
      · have next := (installing.more none).2
        refine Nat.lt_of_le_of_lt ?_ next
        have inside : p < region.mappedEnd + pageEntries * pageSize := by omega
        unfold InitRegion.mappedEnd at inside
        rw [pageGetDirIdx_eq p]
        unfold pageEntries pageSize at *
        omega
    have done := (installing.done _ (Nat.sub_lt_left_of_lt_add start early)).2
    rwa [Nat.add_sub_cancel' start, ← entryOf_isSome] at done

theorem roundBytes_page : roundBytes pageSize = pageSize := by decide +kernel

/-- A turn that finds a table. -/
theorem Installing.skip (boot : BootTables region s₀)
    (installing : Installing I region s₀ j s H nodes made)
    (few : pageGetDirIdx kernelStartVma + j < pageEntries)
    (there : entryPresent (s₀.pages.dir (pageGetDirIdx kernelStartVma + j)) = true) :
    (∀ depth, allocTable depth contents (pageGetDirIdx kernelStartVma + j) s = .ok ((), s)) ∧
      Installing I region s₀ (j + 1) s H nodes made := by
  obtain ⟨dir, table⟩ := installing.later j le_rfl
  have present : entryPresent (s.pages.dir (pageGetDirIdx kernelStartVma + j)) = true := dir ▸ there
  refine ⟨fun depth => ?_, ⟨installing.heap, installing.live, installing.below,
    installing.present, installing.first, fun i small => ?_, fun i behind =>
    installing.later i (Nat.le_of_succ_le behind), Nat.le_succ_of_le installing.few,
    installing.start, fun some => ?_, installing.holds⟩⟩
  · unfold allocTable
    rw [Prog.bind_of_ok (Prog.read_run _ _), present]
    rfl
  · rcases Nat.lt_succ_iff_lt_or_eq.mp small with old | rfl
    · exact installing.done i old
    · rw [table, ← boot.dir _ (Nat.le_add_right _ _) few]
      exact ⟨present, there⟩
  · obtain ⟨stop, low⟩ := installing.more some
    exact ⟨stop, Nat.lt_succ_of_lt low⟩

/-- One turn, when `kalloc` returns a page. -/
theorem allocTable_runs {t : Sys PageTables} {target e : ℕ}
    (missing : entryPresent (s.pages.dir i) = false)
    (request : kalloc depth pageSize pageSize s = .ok (target, t))
    (fresh : t.pages.table i = none) (there : t.pages.entryOf target = some e) :
    allocTable depth contents i s = .ok ((), t.installed i (contents i)
      ((e &&& Word32.not 0xfff) ||| pagePresent ||| pageWrite)) := by
  have same := entryOf_installed (contents i) (t.pages.dir i) fresh
    (Option.isSome_iff_exists.mpr ⟨e, there⟩)
  have read : onPages (pageGetPma target) { t with pages := { t.pages with
      table := Function.update t.pages.table i (some (contents i)) } } =
      .ok (e &&& Word32.not 0xfff, _) :=
    onPages_eq_ok.mpr ⟨_, pageGetPma_eq_ok.mpr ⟨e, same.trans there, rfl, rfl⟩, rfl⟩
  unfold allocTable
  rw [Prog.bind_of_ok (Prog.read_run _ _), if_pos missing, Prog.bind_of_ok request]
  exact Prog.bind_of_ok read

/-- A turn that makes a table. -/
theorem Installing.make (boot : BootTables region s₀) (fits : region.Fits)
    (keeps : CleanupKeeps region contents s₀ I)
    (installing : Installing I region s₀ j s H nodes made)
    (few : pageGetDirIdx kernelStartVma + j < pageEntries)
    (absent : entryPresent (s₀.pages.dir (pageGetDirIdx kernelStartVma + j)) = false) :
    ∃ s' M nodes' c,
      (∀ depth, allocTable (depth + 1) contents (pageGetDirIdx kernelStartVma + j) s =
        .ok ((), s')) ∧ Installing I region s₀ (j + 1) s' M nodes' (c :: made) := by
  obtain ⟨target, place, aligned, le, multiple, near, notEight, room, tables⟩ :=
    installing.place boot fits few absent
  obtain ⟨noTable, behind, -⟩ := boot.missing few absent
  obtain ⟨dir, table⟩ := installing.later j le_rfl
  have eight : target % 8 = 0 := by
    unfold pageSize at multiple
    omega
  have extends_ : Extends s pageSize pageSize := fun same => absurd same (by decide)
  obtain ⟨t, M, popped, rest, runs, grown, holds⟩ := installing.heap.alloc_grows keeps.loop
    (show pageSize + 15 < 2 ^ 32 by decide) extends_ aligned le eight notEight
    (by rw [roundBytes_page]; exact room)
    (fun p member => by
      obtain ⟨-, lower, upper⟩ := mem_startsBetween.mp member
      rw [roundBytes_page] at upper
      exact tables p (le.trans lower) upper)
    installing.holds
  rw [roundBytes_page] at grown
  have sameTables : ∀ idx, (t.pages.table idx).isSome = (s.pages.table idx).isSome := by
    intro idx
    have same := grown.tables (idx * (pageEntries * pageSize))
    rwa [entryOf_isSome, entryOf_isSome, pageGetDirIdx_region] at same
  have fresh : t.pages.table (pageGetDirIdx kernelStartVma + j) = none := by
    have absentT := (sameTables _).trans (table.trans noTable)
    simpa using absentT
  have sameDir : t.pages.dir = s.pages.dir := by
    obtain ⟨events, records⟩ :=
      Traced.alloc (Traced.pageLayer 1).1 pageSize pageSize _ _ _ (runs 0)
    exact records.dir
  obtain ⟨e, entry⟩ := Option.isSome_iff_exists.mp
    ((grown.tables target).trans (tables target le (by omega)))
  have present : entryPresent ((e &&& Word32.not 0xfff) ||| pagePresent ||| pageWrite) = true := by
    rw [Nat.or_assoc, Nat.or_comm pagePresent, ← Nat.or_assoc]
    exact entryPresent_or _
  have stopM := grown.heaps.stop
  refine ⟨t.installed (pageGetDirIdx kernelStartVma + j)
    (contents (pageGetDirIdx kernelStartVma + j))
    ((e &&& Word32.not 0xfff) ||| pagePresent ||| pageWrite), M, rest, ⟨target, pageSize, false⟩,
    fun depth => ?_, ⟨grown.heap.congr rfl rfl rfl, ?_, stopM ▸ room, ?_,
      grown.heaps.first.trans installing.first, fun i small => ?_, fun i later => ?_, ?_,
      fun none => absurd none (List.cons_ne_nil _ _), fun _ => ⟨?_, Nat.succ_lt_succ behind⟩,
      keeps.installed holds fresh absent⟩⟩
  · exact allocTable_runs (dir ▸ absent) (runs depth) fresh entry
  · have perm := installing.live
    rw [grown.nodes] at perm
    exact grown.heaps.live_rest perm
  · rw [grown.heaps.first]
    refine PresentBetween.installed fresh fun p start lower upper => ?_
    by_cases old : p < H.stop
    · exact grown.keeps p (installing.present p start lower old)
    · exact grown.maps p start (Nat.le_of_not_lt fun below => old (near p start below))
        (stopM ▸ upper)
  · by_cases here : i = j
    · subst here
      exact ⟨(congrArg _ (Function.update_self _ _ _)).trans present,
        (congrArg _ (Function.update_self _ _ _)).trans rfl⟩
    · have other : pageGetDirIdx kernelStartVma + i ≠ pageGetDirIdx kernelStartVma + j := by omega
      obtain ⟨dirI, tableI⟩ := installing.done i (by omega)
      refine ⟨(congrArg _ (Function.update_of_ne other _ _)).trans ?_,
        (congrArg _ (Function.update_of_ne other _ _)).trans ?_⟩
      · rw [sameDir]
        exact dirI
      · rw [sameTables]
        exact tableI
  · have other : pageGetDirIdx kernelStartVma + i ≠ pageGetDirIdx kernelStartVma + j := by omega
    obtain ⟨dirI, tableI⟩ := installing.later i (Nat.le_of_succ_le later)
    refine ⟨(Function.update_of_ne other _ _).trans ?_,
      (congrArg _ (Function.update_of_ne other _ _)).trans ?_⟩
    · rw [sameDir]
      exact dirI
    · rw [sameTables]
      exact tableI
  · rw [List.length_cons]
    exact Nat.succ_le_succ installing.few
  · rw [stopM, place, List.length_cons]
    unfold pageSize
    omega

/-- **The first `n` turns.** -/
theorem Installing.run (boot : BootTables region s₀) (fits : region.Fits)
    (keeps : CleanupKeeps region contents s₀ I)
    (installing : Installing I region s₀ 0 s H nodes []) :
    ∀ n, pageGetDirIdx kernelStartVma + n ≤ pageEntries → ∃ s' M nodes' made,
      (∀ depth, allocTables (depth + 1) contents n s = .ok ((), s')) ∧
      Installing I region s₀ n s' M nodes' made
  | 0, _ => ⟨s, H, nodes, [], fun _ => rfl, installing⟩
  | n + 1, few => by
      obtain ⟨t, P, nodes₁, made, runs, installing₁⟩ :=
        Installing.run boot fits keeps installing n (Nat.le_of_succ_le few)
      cases there : entryPresent (s₀.pages.dir (pageGetDirIdx kernelStartVma + n)) with
      | true =>
          obtain ⟨turn, final⟩ := installing₁.skip boot few there
          refine ⟨t, P, nodes₁, made, fun depth => ?_, final⟩
          unfold allocTables
          rw [Prog.bind_of_ok (runs depth)]
          exact turn (depth + 1)
      | false =>
          obtain ⟨s', M, nodes', c, turn, final⟩ := installing₁.make boot fits keeps few there
          refine ⟨s', M, nodes', c :: made, fun depth => ?_, final⟩
          unfold allocTables
          rw [Prog.bind_of_ok (runs depth)]
          exact turn depth

/-- While every directory entry has a table, nothing happens. -/
theorem allocTables_skip {n : ℕ}
    (there : ∀ i < n, entryPresent (s.pages.dir (pageGetDirIdx kernelStartVma + i)) = true) :
    allocTables depth contents n s = .ok ((), s) := by
  induction n with
  | zero => rfl
  | succ n ih =>
      unfold allocTables
      rw [Prog.bind_of_ok (ih fun i small => there i (Nat.lt_succ_of_lt small))]
      unfold allocTable
      rw [Prog.bind_of_ok (Prog.read_run _ _), there n n.lt_succ_self]
      rfl

/-- A heap whose pages have tables ends in the part that is mapped, where tables are
missing. -/
theorem BootTables.le_mappedEnd (boot : BootTables region s₀) (lacks : region.LacksTables)
    {stop : ℕ} (fits : HeapFits s₀.pages region.heapEndVma stop) : stop ≤ region.mappedEnd := by
  have start : region.heapEndVma - 1 < region.mappedEnd := lt_mappedEnd_iff.mpr le_rfl
  have room := fits.room
  by_contra beyond
  have multiple : region.mappedEnd % pageSize = 0 := by
    unfold InitRegion.mappedEnd pageEntries pageSize
    omega
  have there := fits.tables region.mappedEnd multiple (by omega) (by omega)
  unfold InitRegion.LacksTables at lacks
  rcases (boot.heap_tables (by omega) (by unfold pageSize at room; omega)).mp there with
    inside | last
  · exact absurd inside (Nat.lt_irrefl _)
  · rw [InitRegion.mappedEnd, pageGetDirIdx_region] at last
    omega

/-- **The first new table**: `kalloc` returns only if its two pages have tables. -/
theorem Installing.request_needs (boot : BootTables region s₀) (lacks : region.LacksTables)
    (installing : Installing I region s₀ 0 s H nodes [])
    (fits : HeapFits s₀.pages region.heapEndVma region.cleanEnd)
    (tables : ∀ v, (s.pages.entryOf v).isSome = (s₀.pages.entryOf v).isSome) {v : ℕ}
    (request : kalloc (depth + 1) pageSize pageSize s = .ok (v, s')) :
    region.cleanEnd % pageSize ≠ pageSize - 8 ∧
      region.firstTable + 2 * pageSize ≤ region.mappedEnd := by
  have stop := installing.start rfl
  have inside := boot.le_mappedEnd lacks fits
  have high : region.mappedEnd + 2 * pageSize < 2 ^ 32 - pageSize := by
    unfold InitRegion.LacksTables at lacks
    unfold InitRegion.mappedEnd
    unfold pageEntries pageSize at *
    omega
  have multiple : region.mappedEnd % pageSize = 0 := by
    unfold InitRegion.mappedEnd pageEntries pageSize
    omega
  have target : region.firstTable ≤ region.mappedEnd :=
    alignedEnd_le (by decide) (Nat.dvd_of_mod_eq_zero multiple) inside
  have multT : region.firstTable % pageSize = 0 := Nat.mul_mod_left _ _
  have le : region.cleanEnd ≤ region.firstTable := PageAlignment.page.le_alignedEnd _
  have eight : region.firstTable % 8 = 0 := by
    unfold pageSize at multT
    omega
  have start : region.heapEndVma ≤ region.cleanEnd := by
    unfold InitRegion.cleanEnd nodesEnd
    omega
  rcases installing.heap.alloc_cases pageSize (show pageSize + 15 < 2 ^ 32 by decide) with
    ⟨-, -, s₃, kernel, touch, extends_⟩ | ⟨finds, -⟩
  · rw [roundBytes_page] at extends_
    rw [kalloc, extends_] at request
    obtain ⟨notEight, -, there⟩ := kernel.extend_needs (n := pageSize)
      (stop ▸ align_page_eq (by omega)) (stop ▸ le) eight
      (by unfold pageSize at high ⊢; omega) request
    constructor
    · intro padding
      apply notEight
      rw [stop]
      unfold InitRegion.firstTable alignedEnd
      unfold pageSize at *
      omega
    · -- the page behind the table has one itself
      have second := there (region.firstTable + pageSize) (mem_startsBetween.mpr
        ⟨by unfold pageSize at *; omega, Nat.le_add_right _ _, by omega⟩)
      rw [touch.pages, tables, boot.heap_tables (by omega) (by omega)] at second
      rcases second with below | last
      · unfold pageSize at *
        omega
      · have behind : region.firstTable + pageSize < region.mappedEnd + pageEntries * pageSize := by
          unfold pageEntries pageSize at *
          omega
        unfold InitRegion.LacksTables at lacks
        unfold InitRegion.mappedEnd at behind
        rw [pageGetDirIdx_eq] at last
        unfold pageEntries pageSize at *
        omega
  · exact absurd (fun same => absurd same (by decide)) finds

/-- **The loop returns only if** the first new table finds its place. -/
theorem Installing.needs (boot : BootTables region s₀)
    (installing : Installing I region s₀ 0 s H nodes [])
    (fits : HeapFits s₀.pages region.heapEndVma region.cleanEnd)
    (tables : ∀ v, (s.pages.entryOf v).isSome = (s₀.pages.entryOf v).isSome)
    (returned : allocTables (depth + 1) contents kernelTables s = .ok ((), s')) : region.Fits := by
  unfold InitRegion.Fits
  by_cases lacks : region.LacksTables
  · rw [if_pos lacks]
    have lacksIdx : pageGetDirIdx (region.heapEndVma - 1) + 2 < pageEntries := lacks
    have heap := boot.layout.kernelHeap
    have low : pageGetDirIdx kernelStartVma ≤ pageGetDirIdx (region.heapEndVma - 1) := by
      rw [pageGetDirIdx_eq, pageGetDirIdx_eq]
      exact Nat.div_le_div_right (Nat.div_le_div_right (by omega))
    -- the first directory entry without a table
    obtain ⟨m, here⟩ : ∃ m, pageGetDirIdx kernelStartVma + m =
        pageGetDirIdx (region.heapEndVma - 1) + 1 := ⟨_, Nat.add_sub_cancel' (by omega)⟩
    have split : kernelTables = m + 1 + (kernelTables - (m + 1)) := by
      unfold kernelTables
      omega
    rw [split] at returned
    obtain ⟨t, first, -⟩ := allocTables_prefix returned
    have dirs : ∀ i, entryPresent (s.pages.dir (pageGetDirIdx kernelStartVma + i)) =
        entryPresent (s₀.pages.dir (pageGetDirIdx kernelStartVma + i)) := fun i =>
      congrArg _ (installing.later i (Nat.zero_le _)).1
    have before : allocTables (depth + 1) contents m s = .ok ((), s) := by
      refine allocTables_skip fun i small => ?_
      rw [dirs, boot.dir _ (Nat.le_add_right _ _) (by omega)]
      exact (boot.kernel _ (Nat.le_add_right _ _) (by omega)).mpr (Or.inl (by omega))
    have absent : entryPresent (s.pages.dir (pageGetDirIdx kernelStartVma + m)) = false := by
      rw [dirs, boot.dir _ (Nat.le_add_right _ _) (by omega), ← Bool.not_eq_true]
      refine mt (boot.kernel _ (Nat.le_add_right _ _) (by omega)).mp ?_
      omega
    obtain ⟨u, s₁, run, turn⟩ := Prog.bind_eq_ok.mp first
    cases before.symm.trans run
    unfold allocTable at turn
    rw [Prog.bind_of_ok (Prog.read_run _ _), if_pos absent] at turn
    obtain ⟨v, s₂, request, -⟩ := Prog.bind_eq_ok.mp turn
    exact installing.request_needs boot lacks fits tables request
  · rw [if_neg lacks]
    exact fits.room

/-! ## `page_init_cleanup` -/

/-- Every directory entry of the kernel region is present and has a table. -/
def AllTables (pt : PageTables) : Prop :=
  ∀ idx, pageGetDirIdx kernelStartVma ≤ idx → idx < pageEntries →
    entryPresent (pt.dir idx) = true ∧ (pt.table idx).isSome

theorem kernelTables_eq : pageGetDirIdx kernelStartVma + kernelTables = pageEntries :=
  Nat.add_sub_cancel' (by decide +kernel)

/-- **`page_init_cleanup` returns** where the heap stays in the part that is mapped, and
leaves a well-formed kernel memory, with whatever its steps keep. -/
theorem pageInitCleanup_runs (boot : BootTables region s₀) (fits : region.Fits)
    (keeps : CleanupKeeps region contents s₀ I) (holds : I s₀ []) :
    ∃ s' H nodes made, (∀ depth, pageInitCleanup (depth + 2) contents region s₀ = .ok ((), s')) ∧
      AllTables s'.pages ∧ H.first = region.heapEndVma ∧ KernelClient ⟨s', made⟩ H nodes ∧
      I s' nodes := by
  obtain ⟨s, P, nodes₁, frees, first, stop, cleaning⟩ :=
    freeInitPages_runs boot keeps holds (boot.fits_cleanEnd fits)
  have dir : s.pages.dir = s₀.pages.dir := by
    obtain ⟨events, records⟩ := Traced.freeInitPages 2 region _ _ _ (frees 0)
    exact records.dir
  have start := cleaning.installing first stop
    (stop ▸ (boot.fits_cleanEnd fits).room) dir
  obtain ⟨s', H, nodes, made, makes, final⟩ :=
    start.run boot fits keeps kernelTables kernelTables_eq.le
  have all : AllTables s'.pages := by
    intro idx low few
    have done := final.done (idx - pageGetDirIdx kernelStartVma)
      (by rw [← kernelTables_eq] at few; omega)
    rwa [Nat.add_sub_cancel' low] at done
  refine ⟨s', H, nodes, made, fun depth => ?_, all, final.first, ⟨⟨final.heap, final.below,
    final.present, fun v low word => ?_⟩, final.live⟩, final.holds⟩
  · unfold pageInitCleanup
    rw [Prog.bind_of_ok (frees depth)]
    exact makes (depth + 1)
  · have heap := boot.layout.kernelHeap
    have firstH := final.first
    rw [entryOf_isSome]
    refine (all _ ?_ ?_).2
    · rw [pageGetDirIdx_eq, pageGetDirIdx_eq]
      exact Nat.div_le_div_right (Nat.div_le_div_right (by omega))
    · rw [pageGetDirIdx_eq]
      unfold pageEntries pageSize
      omega

/-- `page_init_cleanup` returns with a table for every directory entry of the kernel region
if and only if the heap stays in the part that is mapped. -/
theorem pageInitCleanup_iff (boot : BootTables region s₀) (contents : ℕ → ℕ → ℕ) (depth : ℕ) :
    (∃ s', pageInitCleanup (depth + 2) contents region s₀ = .ok ((), s') ∧ AllTables s'.pages) ↔
      region.Fits := by
  constructor
  · rintro ⟨s', returned, -⟩
    obtain ⟨u, s, frees, returned⟩ := Prog.bind_eq_ok.mp returned
    have heapFits := freeInitPages_needs boot frees
    obtain ⟨t, P, nodes, runs, first, stop, cleaning⟩ := freeInitPages_runs boot
      (cleanupKeeps_true region contents s₀) trivial heapFits
    cases (runs depth).symm.trans frees
    have dir : s.pages.dir = s₀.pages.dir := by
      obtain ⟨events, records⟩ := Traced.freeInitPages _ region _ _ _ frees
      exact records.dir
    have start := cleaning.installing first stop (stop ▸ heapFits.room) dir
    exact start.needs boot heapFits cleaning.tables returned
  · intro fits
    obtain ⟨s', H, nodes, made, runs, all, -⟩ := pageInitCleanup_runs boot fits
      (cleanupKeeps_true region contents s₀) trivial
    exact ⟨s', runs depth, all⟩

/-- Without a table for the start of the heap, the first access stops. -/
theorem pageInitCleanup_stops (layout : region.Layout)
    (missing : s₀.pages.entryOf region.heapEndVma = none) (depth : ℕ) :
    pageInitCleanup depth contents region s₀ = .error (.noTable region.heapEndVma) := by
  have heapEnd := layout.heapEnd
  have stack := layout.heapStack
  have start : align region.heapEndVma kmMinAllocSize = region.heapEndVma :=
    align_kmMin (by unfold pageSize at heapEnd; omega) (by omega)
  have stuck : PageLayer.isPresent region.heapEndVma s₀.pages =
      .error (.noTable region.heapEndVma) := by
    change (pageGetEntry _ _).map _ = _
    unfold pageGetEntry
    rw [missing]
    rfl
  have asked : pageIsPresent region.heapEndVma s₀ = .error (.noTable region.heapEndVma) := by
    unfold pageIsPresent
    rw [stuck]
  have made : initHeap (pageNew depth) region.heapEndVma s₀ =
      .error (.noTable region.heapEndVma) := by
    refine Prog.bind_of_error ?_
    unfold allocNewHeap
    rw [start]
    exact Prog.bind_of_error (Prog.bind_of_error asked)
  exact Prog.bind_of_error (Prog.bind_of_error made)

end Install

/-! ## From `init_map_kernel` on -/

section Init

variable {sym : LinkSymbols} {s : InitState} {dirs : List ℕ} {fuel : ℕ}

/-- Without a table for the start of the heap, nothing is cleaned up. -/
theorem Finished.cleanup_stops (finished : Finished sym dirs s) (linked : sym.Linked)
    (below : sym.heapStart < 2 ^ 32 - pageSize) {k : Sys PageTables}
    (pages : k.pages = handedTables sym s)
    (missing : (handedTables sym s).entryOf sym.heapStart = none) (contents : ℕ → ℕ → ℕ)
    (depth : ℕ) :
    pageInitCleanup depth contents (initRegion sym s) k = .error (.noTable sym.heapStart) := by
  rw [finished.initRegion_eq]
  exact pageInitCleanup_stops (linked.regionLayout below) (pages ▸ missing) depth

/-- **No missing page table is used at boot** if and only if the page tables are covered and the
heap stays in the part that is mapped.  Then `page_init_cleanup` returns from what
`init_map_kernel` has left, and every directory entry of the kernel region is present and has a
table that is found.  `Linked` and `Loaded` are what the linker script and the loader promise;
`below` keeps the page of the stack out of the heap.  The state `k` is any state whose page tables
are the ones a walk of the directory finds, so a table that is looked up at an address where
nothing is mapped is not there. -/
theorem bootCleanup_iff (linked : sym.Linked) (loaded : s.Loaded sym)
    (enough : pageEntries * pageEntries < fuel) (below : sym.heapStart < 2 ^ 32 - pageSize) :
    ∃ t, initMapKernel sym fuel s = .ok ((), t) ∧
      ∀ k : Sys PageTables, k.pages = handedTables sym t → ∀ contents depth,
        ((∃ k', pageInitCleanup (depth + 2) contents (initRegion sym t) k = .ok ((), k') ∧
            AllTables k'.pages) ↔ sym.TablesCovered ∧ sym.region.Fits) := by
  obtain ⟨t, dirs, run, finished⟩ := loaded.finished linked enough
  refine ⟨t, run, fun k pages contents depth => ?_⟩
  by_cases covered : Segment.touched (pageEntries * pageSize) sym.tablesSegment ⊆ sym.fixedRegions
  · have boot := finished.bootTables linked ⟨covered, below⟩ pages
    rw [finished.initRegion_eq, pageInitCleanup_iff boot contents depth]
    exact (and_iff_right ⟨covered, below⟩).symm
  · -- the table for the start of the heap was made for the page tables, and is not mapped
    have stops := finished.cleanup_stops linked below pages
      (finished.heapTable_none linked below covered) contents (depth + 2)
    refine iff_of_false ?_ fun both => covered both.1.1
    rintro ⟨k', returned, -⟩
    rw [stops] at returned
    cases returned

end Init

/-- The theorem for a kernel of 64 KiB: its tables are covered, and its heap fits. -/
theorem bootCleanup_small :
    ∃ t, initMapKernel smallLink (2 ^ 21) freshInit = .ok ((), t) ∧
      ∀ k : Sys PageTables, k.pages = handedTables smallLink t → ∀ contents depth,
        ∃ k', pageInitCleanup (depth + 2) contents (initRegion smallLink t) k = .ok ((), k') ∧
          AllTables k'.pages := by
  obtain ⟨t, run, final⟩ := bootCleanup_iff smallLink_linked (freshInit_loaded smallLink)
    (show _ < 2 ^ 21 by decide) (by decide +kernel)
  exact ⟨t, run, fun k pages contents depth =>
    (final k pages contents depth).mpr ⟨smallLink_boots.covered, by decide +kernel⟩⟩

/-- A kernel whose page tables end at the end of a 4 MiB region. -/
def wholeLink : LinkSymbols :=
  ⟨0x100000, 0x101000, 0x105000, 0xE0000000, 0xE0000000, 0xE0100000, 0xE03FA000, 0xE03FA000⟩

/-- **The heap of a kernel that fills its 4 MiB region** starts where there is no table, also
when every table that was made is found: the first `page_is_present` goes through a lookup
entry that is null. -/
theorem bootCleanup_misses_first_table :
    wholeLink.Boots ∧ freshInit.Loaded wholeLink ∧
      ∃ t, initMapKernel wholeLink (2 ^ 21) freshInit = .ok ((), t) ∧
        t.mem (wholeLink.pageTableLookup 0x381) = 0 ∧ t.nextVma = 0xE0400000 ∧
        ∀ k : Sys PageTables, k.pages = handedTables wholeLink t → ∀ contents depth,
          pageInitCleanup depth contents (initRegion wholeLink t) k =
            .error (.noTable 0xE0400000) := by
  have linked : wholeLink.Linked := by constructor <;> decide +kernel
  have boots : wholeLink.Boots := ⟨linked, by decide +kernel, by decide, by decide +kernel,
    by decide +kernel⟩
  have loaded := freshInit_loaded wholeLink
  have heapStart : wholeLink.heapStart = 0xE0400000 := by decide +kernel
  obtain ⟨t, dirs, run, finished⟩ := loaded.finished linked (show _ < 2 ^ 21 by decide)
  have outside : 0x381 ∉ dirs := by
    rw [← List.mem_toFinset, finished.regions]
    decide +kernel
  have missing : (handedTables wholeLink t).entryOf wholeLink.heapStart = none := by
    have region : pageGetDirIdx wholeLink.heapStart = 0x381 := by decide +kernel
    unfold PageTables.entryOf
    rw [region, finished.table_none outside]
    rfl
  refine ⟨boots, loaded, t, run, finished.noLookup _ (by decide) outside,
    finished.heap.trans heapStart, fun k pages contents depth => ?_⟩
  rw [← heapStart]
  exact finished.cleanup_stops linked (heapStart ▸ by decide) pages missing contents depth

end TrashOS
