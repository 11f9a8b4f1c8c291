import TrashOS.Init.Lookup
import TrashOS.Page.Boot

/-!
# What `init` passes on to `page.c`

`init` enables paging and hands over `page_dir`, `page_table_lookup`, the next free frame
and the start of the heap.  `handedTables` reads the page tables off the memory that
`init_map_kernel` has left, as `page.c` will reach them: a lookup entry is a virtual
address, and the processor translates it before it finds the table.

* `Finished.table_eq` — where the page tables are covered (`TablesCovered`), every table that
  was made is found, with the entries the segments ask for.
* `Finished.bootTables` — so `page_init_cleanup` finds the tables it needs.
* `Finished.heapTable_none` — where they are not, the pointer to the table that the heap
  needs first leads nowhere.

`LinkSymbols.pageTables` is the same state in a form that evaluates.
-/

namespace TrashOS

/-! ## Which pages the segments map -/

section Layout

variable {sym : LinkSymbols} {v idx k : ℕ} {x : ℕ × ℕ}

/-- The first address of a segment. -/
theorem LinkSymbols.Linked.translate_start (linked : sym.Linked) {i : ℕ} {seg : Segment ℕ}
    (found : sym.segments[i]? = some seg) (pos : 0 < seg.size) :
    Segment.translate sym.segments seg.start = some (seg.target, seg.attr) := by
  refine (Segment.translate_eq_some linked.apart).mpr ⟨seg, List.mem_of_getElem? found,
    ⟨le_rfl, Nat.lt_add_of_pos_right pos⟩, Prod.ext ?_ rfl⟩
  rw [Segment.image, Nat.sub_self, Nat.add_zero]

/-- A mapped page belongs to the init section, to the kernel, or it is that of the stack. -/
theorem LinkSymbols.Linked.range_of_translate (linked : sym.Linked)
    (translated : Segment.translate sym.segments v = some x) :
    (sym.initStart ≤ v ∧ v < sym.initBssEnd) ∨ (kernelStartVma ≤ v ∧ v < sym.heapStart) ∨
      (2 ^ 32 - pageSize ≤ v ∧ v < 2 ^ 32) := by
  obtain ⟨seg, member, inside, rfl⟩ := Segment.exists_of_translate translated
  obtain ⟨init, kernel, rodata, bss, stack⟩ := linked.ordered
  have textStart := linked.textStart
  unfold LinkSymbols.heapStart
  simp only [LinkSymbols.segments, LinkSymbols.fixedSegments, LinkSymbols.tablesSegment,
    List.mem_append, List.mem_cons, List.not_mem_nil, or_false] at member
  obtain (rfl | rfl | rfl | rfl | rfl | rfl | rfl) | rfl := member <;>
    unfold Segment.Contains at inside <;> dsimp only at inside <;>
    unfold pageSize at * <;>
    omega

/-- The kernel is mapped from its start to the start of the heap. -/
theorem LinkSymbols.Linked.kernel_mapped (linked : sym.Linked) (lower : kernelStartVma ≤ v)
    (upper : v < sym.heapStart) : ∃ seg ∈ sym.segments, seg.Contains v := by
  obtain ⟨init, kernel, rodata, bss, stack⟩ := linked.ordered
  have textStart := linked.textStart
  by_contra none
  push Not at none
  simp only [LinkSymbols.segments, LinkSymbols.fixedSegments, LinkSymbols.tablesSegment,
    List.cons_append, List.nil_append, List.forall_mem_cons, List.not_mem_nil,
    IsEmpty.forall_iff, implies_true, and_true, Segment.Contains] at none
  unfold LinkSymbols.heapStart pageSize at *
  omega

/-- **Which regions have a page table**, of those in the kernel's part. -/
theorem LinkSymbols.Linked.mem_kernelRegions (linked : sym.Linked)
    (lower : pageGetDirIdx kernelStartVma ≤ idx) (small : idx < pageEntries) :
    idx ∈ sym.allRegions ↔ idx ≤ pageGetDirIdx (sym.heapStart - 1) ∨ idx = pageEntries - 1 := by
  have bssKernel := linked.bssKernel
  obtain ⟨init, kernel, rodata, bss, stack⟩ := linked.ordered
  have textStart := linked.textStart
  have region : pageEntries * pageSize = 2 ^ 22 := rfl
  have dirIdx : ∀ v, pageGetDirIdx v = v / 2 ^ 22 := fun v => by
    rw [pageGetDirIdx, Nat.shiftRight_eq_div_pow]
  rw [LinkSymbols.allRegions, region, Segment.mem_regions (by decide)]
  rw [dirIdx] at lower ⊢
  have start : kernelStartVma / 2 ^ 22 = 896 := by decide +kernel
  have heapStart : kernelStartVma < sym.heapStart := by
    unfold LinkSymbols.heapStart pageSize
    omega
  constructor
  · rintro ⟨seg, member, v, inside, rfl⟩
    have translated : ∃ x, Segment.translate sym.segments v = some x :=
      Option.ne_none_iff_exists'.mp fun none =>
        Segment.translate_eq_none.mp none seg member inside
    obtain ⟨x, translated⟩ := translated
    rcases linked.range_of_translate translated with ⟨-, upper⟩ | ⟨lower', upper⟩ | ⟨lower', upper⟩
    · unfold kernelStartVma at *
      omega
    · exact Or.inl (Nat.div_le_div_right (by omega))
    · refine Or.inr ?_
      unfold pageEntries pageSize at *
      omega
  · rintro (below | rfl)
    · obtain ⟨seg, member, contains⟩ := linked.kernel_mapped (v := idx * 2 ^ 22)
        (by unfold kernelStartVma at *; omega) (by omega)
      exact ⟨seg, member, _, contains, Nat.mul_div_cancel _ (by decide)⟩
    · have pos : 0 < pageSize := by decide
      exact ⟨⟨2 ^ 32 - pageSize, pageSize, sym.stackPage, pageWrite ||| pagePresent⟩,
        List.mem_of_getElem? (i := 5) rfl, 2 ^ 32 - pageSize,
        ⟨le_rfl, Nat.lt_add_of_pos_right pos⟩, by decide⟩

/-- A page whose region has no table is not mapped. -/
theorem LinkSymbols.translate_of_region (sym : LinkSymbols)
    (outside : v / (pageEntries * pageSize) ∉ sym.allRegions) :
    Segment.translate sym.segments v = none := by
  refine Segment.translate_eq_none.mpr fun seg member inside => outside ?_
  exact (Segment.mem_regions (by decide)).mpr ⟨seg, member, v, inside, rfl⟩

/-- The entry of a page holds a frame with flags that make it present. -/
theorem LinkSymbols.Linked.isEntry (linked : sym.Linked) (aligned : v % pageSize = 0)
    (translated : Segment.translate sym.segments v = some x) : IsEntry x.1 x.2 := by
  obtain ⟨seg, member, ⟨lower, upper⟩, rfl⟩ := Segment.exists_of_translate translated
  have whole := linked.wholePages seg member
  have start := whole.start
  have target := whole.target
  have frames := whole.frames
  refine ⟨?_, ?_, whole.low, whole.present⟩
  · change (seg.target + (v - seg.start)) % pageSize = 0
    unfold pageSize at *
    omega
  · change seg.target + (v - seg.start) < 2 ^ 32
    omega

end Layout

/-! ## What `page.c` finds -/

/-- The symbols `page_init_cleanup` uses, and `kernel_heap_end_vma`. -/
def initRegion (sym : LinkSymbols) (s : InitState) : InitRegion :=
  ⟨sym.initStart, sym.initPageStruct, sym.initBssEnd, s.nextVma⟩

/-- The same, by the symbols alone. -/
def LinkSymbols.region (sym : LinkSymbols) : InitRegion :=
  ⟨sym.initStart, sym.initPageStruct, sym.initBssEnd, sym.heapStart⟩

/-- **The page tables of the boot memory.**  The directory is read where it lies; a table is
read where the address in its lookup entry is mapped, if it is. -/
def handedTables (sym : LinkSymbols) (s : InitState) : PageTables where
  dir idx := if idx < pageEntries then s.mem (sym.pageDir idx) else 0
  table idx :=
    if idx < pageEntries ∧ s.mem (sym.pageTableLookup idx) ≠ 0 then
      (walk s.mem sym.initPageStruct (s.mem (sym.pageTableLookup idx))).map fun x j =>
        if j < pageEntries then s.mem (x.1 + 4 * j) else 0
    else none
  freeList := 0
  heapEndPma := s.nextPma
  trace := []

/-- The words of the page table of a region. -/
def tableWords (segs : List (Segment ℕ)) (idx j : ℕ) : ℕ :=
  if j < pageEntries then entryWord (pageMap segs (idx * pageEntries + j)) else 0

section Tables

variable {sym : LinkSymbols} {s : InitState} {dirs : List ℕ} {idx k page : ℕ}

/-- **Every table that was made is found**, with its entries. -/
theorem Finished.table_eq (finished : Finished sym dirs s) (linked : sym.Linked)
    (covered : sym.TablesCovered) (found : dirs[k]? = some idx) :
    (handedTables sym s).table idx = some (tableWords sym.segments idx) := by
  have lookup := finished.lookup_of_covered linked covered found
  have inside := finished.inside covered found
  have bound := linked.bssEnd_bound
  have small : idx < pageEntries := finished.below idx (List.mem_of_getElem? found)
  have nonzero : s.mem (sym.pageTableLookup idx) ≠ 0 := by
    rw [lookup]
    unfold pageSize
    omega
  unfold handedTables
  dsimp only
  rw [if_pos ⟨small, nonzero⟩, lookup, finished.walks _ (by omega), linked.translate_table inside]
  refine congrArg some (funext fun j => ?_)
  unfold tableWords
  dsimp only
  split_ifs with inTable
  · exact finished.table k idx found j inTable
  · rfl

theorem Finished.table_none (finished : Finished sym dirs s) (outside : idx ∉ dirs) :
    (handedTables sym s).table idx = none :=
  if_neg fun both => both.2 (finished.noLookup idx both.1 outside)

/-- **The regions with a table.** -/
theorem Finished.table_isSome (finished : Finished sym dirs s) (linked : sym.Linked)
    (covered : sym.TablesCovered) : ((handedTables sym s).table idx).isSome ↔ idx ∈ dirs := by
  constructor
  · intro there
    by_contra outside
    rw [finished.table_none outside] at there
    cases there
  · intro member
    obtain ⟨k, found⟩ := List.mem_iff_getElem?.mp member
    rw [finished.table_eq linked covered found]
    rfl

/-- The directory entries that are present. -/
theorem Finished.dir_present (finished : Finished sym dirs s) (linked : sym.Linked) :
    entryPresent ((handedTables sym s).dir idx) = true ↔ idx ∈ dirs := by
  unfold handedTables
  dsimp only
  constructor
  · intro present
    split_ifs at present with small
    · exact finished.mem_of_present small present
    · exact absurd present (by decide)
  · intro member
    obtain ⟨k, found⟩ := List.mem_iff_getElem?.mp member
    rw [if_pos (finished.below idx member)]
    exact finished.present linked found

/-- The entry of a page, by its number. -/
theorem Finished.entryOf_eq (finished : Finished sym dirs s) (linked : sym.Linked)
    (covered : sym.TablesCovered) :
    (handedTables sym s).entryOf (page * pageSize) =
      if page / pageEntries ∈ dirs then some (entryWord (pageMap sym.segments page)) else none := by
  have number : page * pageSize / pageSize = page := Nat.mul_div_cancel _ (by decide)
  have inTable : page % pageEntries < pageEntries := Nat.mod_lt _ (by decide)
  unfold PageTables.entryOf
  rw [pageGetDirIdx_eq, pageGetTableIdx_eq, number]
  split_ifs with member
  · obtain ⟨k, found⟩ := List.mem_iff_getElem?.mp member
    rw [finished.table_eq linked covered found, Option.map_some, tableWords, if_pos inTable,
      Nat.div_add_mod']
  · rw [finished.table_none member, Option.map_none]

theorem Finished.initRegion_eq (finished : Finished sym dirs s) :
    initRegion sym s = sym.region := by
  unfold initRegion LinkSymbols.region
  rw [finished.heap]

/-- The layout `page_init_cleanup` needs. -/
theorem LinkSymbols.Linked.regionLayout (linked : sym.Linked)
    (below : sym.heapStart < 2 ^ 32 - pageSize) : sym.region.Layout := by
  obtain ⟨init, kernel, rodata, bss, stack⟩ := linked.ordered
  have heap : sym.region.heapEndVma = sym.heapStart := rfl
  have bssMod := linked.bss
  have tablesMod : sym.tablesSize % pageSize = 0 := Nat.mul_mod_left _ _
  have structBss := linked.structBss
  have textStart := linked.textStart
  refine ⟨linked.start, linked.struct, linked.initBss, ?_, linked.startStruct, ?_,
    linked.bssKernel, ?_, ?_⟩
  · rw [heap]
    unfold LinkSymbols.heapStart pageSize at *
    omega
  · change sym.initPageStruct + 3 * pageSize ≤ sym.initBssEnd
    unfold LinkSymbols.stackPage at structBss
    omega
  · rw [heap]
    unfold LinkSymbols.heapStart pageSize
    omega
  · rw [heap]
    exact below

/-- **The tables `page_init_cleanup` finds**, when the page tables are covered. -/
theorem Finished.bootTables (finished : Finished sym dirs s) (linked : sym.Linked)
    (covered : sym.TablesCovered) {k : Sys PageTables} (pages : k.pages = handedTables sym s) :
    BootTables sym.region k := by
  have heap : sym.region.heapEndVma = sym.heapStart := rfl
  refine ⟨linked.regionLayout covered.2, pages ▸ rfl, fun v lower upper => ?_,
    fun idx lower small => ?_, fun idx lower small => ?_⟩
  · change sym.initStart ≤ v at lower
    change v < sym.initBssEnd at upper
    have entry : (k.pages.entryOf v).isSome = (k.pages.table (pageGetDirIdx v)).isSome :=
      Option.isSome_map
    rw [entry, pages, finished.table_isSome linked covered, ← List.mem_toFinset, finished.regions]
    refine (Segment.mem_regions (by decide)).mpr ⟨_, List.mem_of_getElem? (i := 0) rfl, v,
      ⟨lower, ?_⟩, ?_⟩
    · change v < sym.initStart + (sym.initBssEnd - sym.initStart)
      omega
    · rw [pageGetDirIdx_eq, Nat.div_div_eq_div_mul, Nat.mul_comm]
  · rw [pages, heap, finished.table_isSome linked covered, ← List.mem_toFinset, finished.regions]
    exact linked.mem_kernelRegions lower small
  · rw [pages, Bool.eq_iff_iff, finished.table_isSome linked covered]
    exact finished.dir_present linked

/-! ## A table that is not found -/

/-- The table that is made for the page tables is the one that the heap needs first. -/
theorem Finished.heapRegion (finished : Finished sym dirs s) (linked : sym.Linked)
    (more : ¬ Segment.touched (pageEntries * pageSize) sym.tablesSegment ⊆ sym.fixedRegions) :
    dirs[sym.tableCount]? = some (sym.heapStart / (pageEntries * pageSize)) := by
  obtain ⟨before, few, size⟩ := finished.uncovered linked more
  obtain ⟨idx, found⟩ : ∃ idx, dirs[sym.tableCount]? = some idx :=
    ⟨_, List.getElem?_eq_getElem before⟩
  rw [found]
  refine congrArg some ?_
  -- the tables of the other ranges come first
  obtain ⟨early, first, regions⟩ :=
    finished.order.early sym.fixedSegments (List.prefix_append _ _)
  have nodup : early.Nodup := finished.nodup.sublist first.sublist
  have length : early.length = sym.tableCount := by
    rw [← List.toFinset_card_of_nodup nodup, regions]
    rfl
  have late : idx ∉ early := by
    obtain ⟨rest, split⟩ := first
    have apart := (List.nodup_append'.mp (split ▸ finished.nodup)).2.2
    have inRest : idx ∈ rest := by
      rw [← split, List.getElem?_append_right length.le, ← length] at found
      exact List.mem_of_getElem? found
    exact fun member => apart member inRest
  have notFixed : idx ∉ sym.fixedRegions := by
    rw [LinkSymbols.fixedRegions, ← regions, List.mem_toFinset]
    exact late
  have member : idx ∈ sym.allRegions := by
    rw [← finished.regions, List.mem_toFinset]
    exact List.mem_of_getElem? found
  have inTables := (LinkSymbols.mem_allRegions.mp member).resolve_left notFixed
  obtain ⟨v, ⟨lower, upper⟩, rfl⟩ := (Segment.mem_touched (by decide)).mp inTables
  -- the page of the VGA buffer lies right before them
  have vga : (sym.bssEnd + 3 * pageSize - 1) / (pageEntries * pageSize) ∈ sym.fixedRegions := by
    refine (Segment.mem_regions (by decide)).mpr ⟨_, List.mem_of_getElem? (i := 6) rfl, _,
      ⟨?_, ?_⟩, rfl⟩
    · change sym.bssEnd + 2 * pageSize ≤ _
      unfold pageSize
      omega
    · change _ < sym.bssEnd + 2 * pageSize + pageSize
      unfold pageSize
      omega
  have differ : v / (pageEntries * pageSize) ≠
      (sym.bssEnd + 3 * pageSize - 1) / (pageEntries * pageSize) := fun same =>
    notFixed (same ▸ vga)
  change sym.bssEnd + 3 * pageSize ≤ v at lower
  change v < sym.bssEnd + 3 * pageSize + sym.tablesSize at upper
  unfold LinkSymbols.heapStart
  rw [size] at upper ⊢
  generalize sym.tableCount = n at *
  unfold pageEntries pageSize at *
  omega

/-- **The first table the heap needs is not found** when the page tables are not covered: its
lookup entry is the address of the heap itself, and nothing is mapped there. -/
theorem Finished.heapTable_none (finished : Finished sym dirs s) (linked : sym.Linked)
    (below : sym.heapStart < 2 ^ 32 - pageSize)
    (more : ¬ Segment.touched (pageEntries * pageSize) sym.tablesSegment ⊆ sym.fixedRegions) :
    (handedTables sym s).entryOf sym.heapStart = none := by
  obtain ⟨-, -, size⟩ := finished.uncovered linked more
  have word : sym.heapStart < 2 ^ 32 := below.trans_le (Nat.sub_le _ _)
  have heap : sym.bssEnd + 3 * pageSize + sym.tableCount * pageSize = sym.heapStart := by
    rw [LinkSymbols.heapStart, size]
  have region : pageGetDirIdx sym.heapStart = sym.heapStart / (pageEntries * pageSize) := by
    rw [pageGetDirIdx_eq, Nat.div_div_eq_div_mul, Nat.mul_comm pageSize]
  have lookup := finished.lookup_eq (finished.heapRegion linked more) (heap.trans_lt word)
  rw [heap] at lookup
  unfold PageTables.entryOf handedTables
  dsimp only
  rw [region, lookup, finished.walks _ word, linked.heapStart_unmapped below, Option.map_none,
    ite_self, Option.map_none]

end Tables

/-! ## A layout that boots -/

/-- **A layout that boots**: the page tables need no table of their own, there is memory
behind them, and the VGA buffer lies below the init section. -/
structure LinkSymbols.Boots (sym : LinkSymbols) : Prop extends sym.Linked where
  covered : sym.TablesCovered
  low : vgaPaddrBuffer + pageSize ≤ sym.initStart
  few : sym.tableCount < pageEntries
  next : sym.tableAt sym.tableCount < 2 ^ 32

section Boots

variable {sym : LinkSymbols} {s : InitState} {dirs : List ℕ} {v : ℕ} {x : ℕ × ℕ}

/-- No page table is missing at the end, so the tables take the frames they were made in. -/
theorem LinkSymbols.Boots.tablesSize (boots : sym.Boots) :
    sym.tablesSize = sym.tableCount * pageSize :=
  boots.toLinked.tablesSize_eq boots.few boots.next

/-- The frame behind the page tables. -/
theorem LinkSymbols.Boots.next_eq (boots : sym.Boots) :
    sym.tableAt sym.tableCount = sym.kernelEndPma + sym.tablesSize := by
  rw [boots.tablesSize, LinkSymbols.tableAt]

theorem Finished.nextPma_eq (finished : Finished sym dirs s) (boots : sym.Boots) :
    s.nextPma = sym.tableAt sym.tableCount := by
  rw [finished.nextPma, finished.length_of_covered boots.covered, Nat.mod_eq_of_lt boots.next]

/-- **Which frame a page is mapped to.**  The init section is mapped to itself; every other
page that is mapped is one of the kernel's or that of the stack, and its frame lies in
`init_page_struct` or outside the init section. -/
theorem LinkSymbols.Boots.frame_of_translate (boots : sym.Boots)
    (translated : Segment.translate sym.segments v = some x) :
    (sym.initStart ≤ v ∧ v < sym.initBssEnd ∧ x.1 = v) ∨
      ((kernelStartVma ≤ v ∧ v < sym.heapStart ∨ 2 ^ 32 - pageSize ≤ v ∧ v < 2 ^ 32) ∧
        x.1 < sym.tableAt sym.tableCount ∧
        (x.1 < sym.initStart ∨ sym.initBssEnd ≤ x.1 ∨
          (sym.initPageStruct ≤ x.1 ∧ x.1 < sym.initPageStruct + 3 * pageSize))) := by
  obtain ⟨seg, member, inside, rfl⟩ := Segment.exists_of_translate translated
  obtain ⟨init, kernel, rodata, bss, stack⟩ := boots.toLinked.ordered
  have next := boots.next_eq
  have base := boots.toLinked.kernelEndPma_eq
  have low := boots.low
  have textStart := boots.textStart
  have structBss := boots.structBss
  unfold LinkSymbols.stackPage at structBss
  unfold LinkSymbols.heapStart
  simp only [LinkSymbols.segments, LinkSymbols.fixedSegments, LinkSymbols.tablesSegment,
    List.mem_append, List.mem_cons, List.not_mem_nil, or_false] at member
  obtain (rfl | rfl | rfl | rfl | rfl | rfl | rfl) | rfl := member <;>
    unfold Segment.Contains at inside <;>
    dsimp only [Segment.image, LinkSymbols.pageDir, LinkSymbols.pageTableLookup,
      LinkSymbols.stackPage] at inside ⊢ <;>
    unfold pageSize vgaPaddrBuffer kernelStartVma at * <;>
    omega

/-! ## The tables as a value -/

/-- The page tables of a layout, when tables were made for the regions `dirs` in this order. -/
def LinkSymbols.pageTables (sym : LinkSymbols) (dirs : List ℕ) : PageTables where
  dir idx := if idx ∈ dirs then sym.tableAt (dirs.idxOf idx) ||| tableFlags else 0
  table idx :=
    if idx ∈ dirs then
      some (tableWords (sym.fixedSegments ++ [⟨sym.bssEnd + 3 * pageSize, dirs.length * pageSize,
        sym.kernelEndPma, pageWrite ||| pagePresent⟩]) idx)
    else none
  freeList := 0
  heapEndPma := sym.tableAt dirs.length
  trace := []

/-- These are the tables `page.c` finds. -/
theorem Finished.handedTables_eq (finished : Finished sym dirs s) (boots : sym.Boots) :
    handedTables sym s = sym.pageTables dirs := by
  have length := finished.length_of_covered boots.covered
  have segments : sym.segments = sym.fixedSegments ++ [⟨sym.bssEnd + 3 * pageSize,
      dirs.length * pageSize, sym.kernelEndPma, pageWrite ||| pagePresent⟩] := by
    rw [length, ← boots.tablesSize]
    rfl
  have position : ∀ {idx}, idx ∈ dirs → dirs[dirs.idxOf idx]? = some idx := fun member =>
    List.getElem?_idxOf member
  have sameDir : (handedTables sym s).dir = (sym.pageTables dirs).dir := by
    funext idx
    unfold handedTables LinkSymbols.pageTables
    dsimp only
    by_cases member : idx ∈ dirs
    · rw [if_pos (finished.below idx member), if_pos member]
      exact finished.dir _ idx (position member)
    · rw [if_neg member]
      split_ifs with small
      · exact finished.noDir idx small member
      · rfl
  have sameTable : (handedTables sym s).table = (sym.pageTables dirs).table := by
    funext idx
    change _ = if idx ∈ dirs then some (tableWords _ idx) else none
    rw [← segments]
    split_ifs with member
    · exact finished.table_eq boots.toLinked boots.covered (position member)
    · exact finished.table_none member
  have samePma : (handedTables sym s).heapEndPma = (sym.pageTables dirs).heapEndPma := by
    change s.nextPma = sym.tableAt dirs.length
    rw [finished.nextPma_eq boots, length]
  change (⟨(handedTables sym s).dir, (handedTables sym s).table, 0,
    (handedTables sym s).heapEndPma, []⟩ : PageTables) = _
  rw [sameDir, sameTable, samePma]
  rfl

/-- One region more. -/
theorem eq_snoc_of_prefix {early later : List ℕ} {idx : ℕ} (nodupE : early.Nodup)
    (nodup : later.Nodup) (first : early <+: later)
    (regions : later.toFinset = insert idx early.toFinset) (fresh : idx ∉ early) :
    later = early ++ [idx] := by
  have card := congrArg Finset.card regions
  rw [Finset.card_insert_of_notMem (mt List.mem_toFinset.mp fresh),
    List.toFinset_card_of_nodup nodup, List.toFinset_card_of_nodup nodupE] at card
  obtain ⟨rest, rfl⟩ := first
  rw [List.length_append, Nat.add_left_cancel_iff] at card
  obtain ⟨last, rfl⟩ := List.length_eq_one_iff.mp card
  have member : idx ∈ (early ++ [last]).toFinset := regions ▸ Finset.mem_insert_self _ _
  have either := List.mem_append.mp (List.mem_toFinset.mp member)
  rw [List.mem_singleton.mp (either.resolve_left fresh)]

end Boots

/-! ## A small kernel -/

theorem smallLink_boots : smallLink.Boots where
  toLinked := smallLink_linked
  covered := by decide +kernel
  low := by decide
  few := by decide +kernel
  next := by decide +kernel

/-- Its tables: for the init section, for the kernel, and for the page of the stack. -/
theorem Finished.smallLink_dirs {s : InitState} {dirs : List ℕ}
    (finished : Finished smallLink dirs s) : dirs = [0, 896, 1023] := by
  have order := finished.order
  have nodup : ∀ {l}, l <+: dirs → l.Nodup := fun first => finished.nodup.sublist first.sublist
  obtain ⟨one, first, regions₁⟩ := order.early (smallLink.segments.take 1) (List.take_prefix _ _)
  obtain ⟨two, second, regions₂⟩ := order.early (smallLink.segments.take 5) (List.take_prefix _ _)
  have regions₃ := order.whole
  have same₁ : one = [0] := by
    refine eq_snoc_of_prefix List.nodup_nil (nodup first) (List.nil_prefix) ?_ List.not_mem_nil
    rw [regions₁]
    decide +kernel
  subst same₁
  have length : ([0] : List ℕ).length ≤ two.length := by
    rw [← List.toFinset_card_of_nodup (nodup second), regions₂]
    decide +kernel
  have same₂ : two = [0] ++ [896] := by
    refine eq_snoc_of_prefix (nodup first) (nodup second)
      (List.prefix_of_prefix_length_le first second length) ?_ (by decide)
    rw [regions₂]
    decide +kernel
  subst same₂
  refine eq_snoc_of_prefix (nodup second) finished.nodup second ?_ (by decide)
  rw [regions₃]
  decide +kernel

/-- The init section of the small kernel, and the start of its heap. -/
def smallRegion : InitRegion := ⟨0x100000, 0x101000, 0x105000, 0xE0016000⟩

theorem smallLink_region : smallLink.region = smallRegion := by
  unfold LinkSymbols.region
  have heap : smallLink.heapStart = 0xE0016000 := by decide +kernel
  rw [heap]
  rfl

/-- The small kernel when `page_init_cleanup` starts, with the `get_page_first_run` of
`apic.c` in its `.data`. -/
def smallBoot : Sys PageTables where
  mem a := if a = 0xE0000800 then 1 else 0
  ctxt := ⟨0, 0, 0⟩
  pages := smallLink.pageTables [0, 896, 1023]
  log := []

/-- **`init_map_kernel` leaves this state.** -/
theorem smallBoot_handed :
    ∃ t dirs, initMapKernel smallLink (2 ^ 21) freshInit = .ok ((), t) ∧
      Finished smallLink dirs t ∧ initRegion smallLink t = smallRegion ∧
      smallBoot.pages = handedTables smallLink t := by
  obtain ⟨t, dirs, run, finished⟩ :=
    (freshInit_loaded smallLink).finished smallLink_linked (show _ < 2 ^ 21 by decide)
  refine ⟨t, dirs, run, finished, finished.initRegion_eq.trans smallLink_region, ?_⟩
  rw [finished.handedTables_eq smallLink_boots, finished.smallLink_dirs]
  rfl

end TrashOS
