import TrashOS.Init.Space

/-!
# The bookkeeping of page tables after boot

`page.c` reaches a page table through `page_table_lookup`, so what boot leaves there has to
be an address at which the table is mapped.  `init_map_kernel` maps the page tables that
exist before its last loop.  When that loop itself needs one more table, because the
page tables cross into a 4 MiB region that nothing else is in, the new table is mapped
nowhere, and its lookup entry is the address at which the heap starts.

`lookupKept_iff` says exactly when this does not happen.

* `Finished` — everything that later modules use of the memory `init_map_kernel` leaves.
* `TablesCovered` — the condition, in the symbols of the linker script.
* `crossingLink` — a layout that the linker script allows and that breaks it.
-/

namespace TrashOS

/-- The lookup table is right: the addresses in it are mapped to the page tables, no two
are the same, and the heap starts behind them at an address that is not mapped. -/
structure LookupKept (sym : LinkSymbols) (s : InitState) : Prop where
  translated : ∀ idx < pageEntries, entryPresent (s.mem (sym.pageDir idx)) = true →
    (walk s.mem sym.initPageStruct (s.mem (sym.pageTableLookup idx))).map Prod.fst =
      some (s.mem (sym.pageDir idx) &&& Word32.not 0xfff)
  distinct : ∀ i < pageEntries, ∀ j < pageEntries,
    entryPresent (s.mem (sym.pageDir i)) = true → entryPresent (s.mem (sym.pageDir j)) = true →
    s.mem (sym.pageTableLookup i) = s.mem (sym.pageTableLookup j) → i = j
  above : ∀ idx < pageEntries, entryPresent (s.mem (sym.pageDir idx)) = true →
    s.mem (sym.pageTableLookup idx) < s.nextVma
  unmapped : walk s.mem sym.initPageStruct s.nextVma = none

/-- The page tables lie in 4 MiB regions that have a page table already, and end before the
page of the stack. -/
def LinkSymbols.TablesCovered (sym : LinkSymbols) : Prop :=
  Segment.touched (pageEntries * pageSize) sym.tablesSegment ⊆ sym.fixedRegions ∧
    sym.heapStart < 2 ^ 32 - pageSize

instance (sym : LinkSymbols) : Decidable sym.TablesCovered :=
  inferInstanceAs (Decidable (_ ∧ _))

/-- **What `init_map_kernel` leaves.** -/
structure Finished (sym : LinkSymbols) (dirs : List ℕ) (s : InitState) : Prop where
  nodup : dirs.Nodup
  below : ∀ idx ∈ dirs, idx < pageEntries
  dir : ∀ k idx, dirs[k]? = some idx → s.mem (sym.pageDir idx) = sym.tableAt k ||| tableFlags
  noDir : ∀ idx < pageEntries, idx ∉ dirs → s.mem (sym.pageDir idx) = 0
  lookup : ∀ k idx, dirs[k]? = some idx → s.mem (sym.pageTableLookup idx) =
    Word32.add ((k + 1) * pageSize) (Word32.sub (sym.bssEnd + 3 * pageSize) pageSize)
  walks : ∀ v < 2 ^ 32, walk s.mem sym.initPageStruct v = Segment.translate sym.segments v
  heap : s.nextVma = sym.heapStart
  order : MadeInOrder dirs sym.segments
  table : ∀ k idx, dirs[k]? = some idx → ∀ j < pageEntries,
    s.mem (sym.tableAt k + 4 * j) = entryWord (pageMap sym.segments (idx * pageEntries + j))
  noLookup : ∀ idx < pageEntries, idx ∉ dirs → s.mem (sym.pageTableLookup idx) = 0
  nextPma : s.nextPma = sym.tableAt dirs.length % 2 ^ 32

section Finish

variable {sym : LinkSymbols} {s : InitState} {dirs : List ℕ} {fuel k idx : ℕ}

theorem InitState.Loaded.finished (loaded : s.Loaded sym) (linked : sym.Linked)
    (enough : pageEntries * pageEntries < fuel) :
    ∃ t dirs, initMapKernel sym fuel s = .ok ((), t) ∧ Finished sym dirs t := by
  have behind := linked.tablesBehind
  have above := behind.behind
  obtain ⟨t, u, run, mapped, nextVma, relocated, heap, nextPma⟩ := loaded.runs linked enough
  obtain ⟨dirs, built, order, -⟩ := mapped.tables
  have dirKept : ∀ idx < pageEntries, u.mem (sym.pageDir idx) = t.mem (sym.pageDir idx) :=
    fun idx bound => relocated.others _ fun i _ => by
      unfold LinkSymbols.pageDir LinkSymbols.pageTableLookup pageEntries pageSize at *
      omega
  have tableKept : ∀ a, sym.kernelEndPma ≤ a → u.mem a = t.mem a := fun a le =>
    relocated.others a fun i _ => by
      unfold LinkSymbols.pageTableLookup pageEntries pageSize at *
      omega
  refine ⟨u, dirs, run, ⟨built.nodup, built.below, fun k idx found => ?_,
    fun idx bound outside => ?_, fun k idx found => ?_, fun v word => ?_, heap, order,
    fun k idx found j small => ?_, fun idx bound outside => ?_, nextPma.trans built.nextPma⟩⟩
  · rw [dirKept idx (built.below idx (List.mem_of_getElem? found))]
    exact built.dir k idx found
  · rw [dirKept idx bound]
    exact built.noDir idx bound outside
  · have offset := built.lookup k idx found
    have nonzero : (k + 1) * pageSize ≠ 0 := Nat.mul_ne_zero k.succ_ne_zero (by decide)
    rw [relocated.lookup idx (built.below idx (List.mem_of_getElem? found)), offset,
      if_pos nonzero, nextVma]
  · rw [built.walk_relocated behind relocated word]
    exact built.walk_segments behind linked.wholePages word
  · rw [tableKept (sym.tableAt k + 4 * j) ((Nat.le_add_right _ _).trans (Nat.le_add_right _ _))]
    exact built.table k idx found j small
  · have none := built.noLookup idx bound outside
    rw [relocated.lookup idx bound, if_neg (not_not.mpr none)]

/-- A table is present when its index is one of `dirs`. -/
theorem Finished.mem_of_present (finished : Finished sym dirs s) (bound : idx < pageEntries)
    (present : entryPresent (s.mem (sym.pageDir idx)) = true) : idx ∈ dirs := by
  by_contra outside
  rw [finished.noDir idx bound outside] at present
  exact absurd present (by decide)

/-- The regions with a table are those that something is mapped in. -/
theorem Finished.regions (finished : Finished sym dirs s) : dirs.toFinset = sym.allRegions :=
  finished.order.whole

theorem Finished.length_eq (finished : Finished sym dirs s) :
    dirs.length = sym.allRegions.card := by
  rw [← finished.regions, List.toFinset_card_of_nodup finished.nodup]

/-- The entry of the `k`th table. -/
theorem Finished.entry (finished : Finished sym dirs s) (linked : sym.Linked)
    (found : dirs[k]? = some idx) : IsEntry (sym.tableAt k) tableFlags := by
  have room := linked.allRoom
  have before := (List.getElem?_eq_some_iff.mp found).1
  rw [← finished.length_eq] at room
  refine ⟨linked.tablesBehind.tableAt_aligned k, ?_, by decide, by decide⟩
  unfold LinkSymbols.tableAt pageSize at *
  omega

theorem Finished.present (finished : Finished sym dirs s) (linked : sym.Linked)
    (found : dirs[k]? = some idx) : entryPresent (s.mem (sym.pageDir idx)) = true := by
  rw [finished.dir k idx found]
  exact (finished.entry linked found).present_eq

theorem Finished.frame (finished : Finished sym dirs s) (linked : sym.Linked)
    (found : dirs[k]? = some idx) :
    s.mem (sym.pageDir idx) &&& Word32.not 0xfff = sym.tableAt k := by
  rw [finished.dir k idx found]
  exact (finished.entry linked found).mask_eq

/-- The `k`th table has the `k`th address behind the VGA buffer. -/
theorem Finished.lookup_eq (finished : Finished sym dirs s) (found : dirs[k]? = some idx)
    (word : sym.bssEnd + 3 * pageSize + k * pageSize < 2 ^ 32) :
    s.mem (sym.pageTableLookup idx) = sym.bssEnd + 3 * pageSize + k * pageSize := by
  rw [finished.lookup k idx found, Word32.sub_eq (by unfold pageSize; omega)
    (by unfold pageSize at *; omega), Word32.add_eq (by unfold pageSize at *; omega)]
  unfold pageSize
  omega

/-! ## When the tables are covered -/

theorem LinkSymbols.mem_allRegions :
    idx ∈ sym.allRegions ↔
      idx ∈ sym.fixedRegions ∨
        idx ∈ Segment.touched (pageEntries * pageSize) sym.tablesSegment := by
  have pos : 0 < pageEntries * pageSize := by decide
  rw [LinkSymbols.allRegions, Segment.mem_regions pos, Segment.mem_regions pos,
    Segment.mem_touched pos, LinkSymbols.segments]
  constructor
  · rintro ⟨seg, member, inside⟩
    rcases List.mem_append.mp member with fixed | tables
    · exact Or.inl ⟨seg, fixed, inside⟩
    · exact Or.inr (List.mem_singleton.mp tables ▸ inside)
  · rintro (⟨seg, fixed, inside⟩ | inside)
    · exact ⟨seg, List.mem_append_left _ fixed, inside⟩
    · exact ⟨sym.tablesSegment, List.mem_append_right _ List.mem_cons_self, inside⟩

/-- No table is made for the page tables, or one more. -/
theorem LinkSymbols.card_allRegions_eq (covered : Segment.touched (pageEntries * pageSize)
    sym.tablesSegment ⊆ sym.fixedRegions) : sym.allRegions.card = sym.tableCount := by
  refine congrArg Finset.card (Finset.Subset.antisymm (fun idx member => ?_)
    sym.fixedRegions_subset)
  exact (LinkSymbols.mem_allRegions.mp member).elim id fun inTables => covered inTables

theorem LinkSymbols.lt_card_allRegions (more : ¬ Segment.touched (pageEntries * pageSize)
    sym.tablesSegment ⊆ sym.fixedRegions) : sym.tableCount < sym.allRegions.card := by
  obtain ⟨idx, inTables, outside⟩ := Finset.not_subset.mp more
  refine Finset.card_lt_card (Finset.ssubset_iff_of_subset sym.fixedRegions_subset |>.mpr
    ⟨idx, LinkSymbols.mem_allRegions.mpr (Or.inr inTables), outside⟩)

/-- Below the page of the stack, the heap starts where nothing is mapped. -/
theorem LinkSymbols.Linked.heapStart_unmapped (linked : sym.Linked)
    (below : sym.heapStart < 2 ^ 32 - pageSize) :
    Segment.translate sym.segments sym.heapStart = none := by
  obtain ⟨init, kernel, rodata, bss, stack⟩ := linked.ordered
  rw [Segment.translate_eq_none]
  unfold LinkSymbols.heapStart at *
  simp only [LinkSymbols.segments, LinkSymbols.fixedSegments, LinkSymbols.tablesSegment,
    List.cons_append, List.nil_append, List.forall_mem_cons, List.not_mem_nil,
    IsEmpty.forall_iff, implies_true, and_true, Segment.Contains]
  unfold pageSize at *
  omega

/-- The address of the `k`th table is mapped to it. -/
theorem LinkSymbols.Linked.translate_table (linked : sym.Linked)
    (inside : k * pageSize < sym.tablesSize) :
    Segment.translate sym.segments (sym.bssEnd + 3 * pageSize + k * pageSize) =
      some (sym.tableAt k, pageWrite ||| pagePresent) := by
  refine (Segment.translate_eq_some linked.apart).mpr ⟨sym.tablesSegment,
    List.mem_append_right _ List.mem_cons_self, ⟨Nat.le_add_right _ _,
      Nat.add_lt_add_left inside _⟩, ?_⟩
  refine Prod.ext ?_ rfl
  change sym.kernelEndPma + (sym.bssEnd + 3 * pageSize + k * pageSize -
    (sym.bssEnd + 3 * pageSize)) = sym.kernelEndPma + k * pageSize
  rw [Nat.add_sub_cancel_left]

/-- The number of tables, when the tables are covered. -/
theorem Finished.length_of_covered (finished : Finished sym dirs s) (covered : sym.TablesCovered) :
    dirs.length = sym.tableCount :=
  finished.length_eq.trans (LinkSymbols.card_allRegions_eq covered.1)

/-- The address of the `k`th table lies in the range of the tables. -/
theorem Finished.inside (finished : Finished sym dirs s) (covered : sym.TablesCovered)
    (found : dirs[k]? = some idx) : k * pageSize < sym.tablesSize := by
  have before := (List.getElem?_eq_some_iff.mp found).1
  rw [finished.length_of_covered covered] at before
  exact Nat.mul_lt_mul_of_pos_right (before.trans_le (Nat.le_add_right _ _)) (by decide)

theorem Finished.lookup_of_covered (finished : Finished sym dirs s) (linked : sym.Linked)
    (covered : sym.TablesCovered) (found : dirs[k]? = some idx) :
    s.mem (sym.pageTableLookup idx) = sym.bssEnd + 3 * pageSize + k * pageSize := by
  have bound := linked.bssEnd_bound
  have below := finished.inside covered found
  exact finished.lookup_eq found (by omega)

/-- **The lookup table is right** when the tables are covered. -/
theorem Finished.kept (finished : Finished sym dirs s) (linked : sym.Linked)
    (covered : sym.TablesCovered) : LookupKept sym s := by
  have bound := linked.bssEnd_bound
  have inside : ∀ {k idx}, dirs[k]? = some idx → k * pageSize < sym.tablesSize :=
    finished.inside covered
  have lookup : ∀ {k idx}, dirs[k]? = some idx →
      s.mem (sym.pageTableLookup idx) = sym.bssEnd + 3 * pageSize + k * pageSize :=
    finished.lookup_of_covered linked covered
  have position : ∀ idx < pageEntries, entryPresent (s.mem (sym.pageDir idx)) = true →
      ∃ k, dirs[k]? = some idx := fun idx small present =>
    List.mem_iff_getElem?.mp (finished.mem_of_present small present)
  constructor
  · intro idx small present
    obtain ⟨k, found⟩ := position idx small present
    have word : sym.bssEnd + 3 * pageSize + k * pageSize < 2 ^ 32 := by
      have := inside found
      omega
    rw [lookup found, finished.walks _ word, linked.translate_table (inside found),
      finished.frame linked found]
    rfl
  · intro i smallI j smallJ presentI presentJ same
    obtain ⟨k, foundI⟩ := position i smallI presentI
    obtain ⟨l, foundJ⟩ := position j smallJ presentJ
    rw [lookup foundI, lookup foundJ] at same
    have equal : k = l := Nat.eq_of_mul_eq_mul_right (by decide) (Nat.add_left_cancel same)
    rw [equal, foundJ] at foundI
    exact (Option.some.inj foundI).symm
  · intro idx small present
    obtain ⟨k, found⟩ := position idx small present
    rw [lookup found, finished.heap]
    exact Nat.add_lt_add_left (inside found) _
  · rw [finished.heap, finished.walks _ (covered.2.trans_le (Nat.sub_le _ _))]
    exact linked.heapStart_unmapped covered.2

/-! ## When they are not -/

/-- Rounding up to a region past the end of the address space gives zero. -/
theorem align_region_of_wrap {base : ℕ} (word : base < 2 ^ 32)
    (wraps : ¬ Word32.roundUp 22 base < 2 ^ 32) : align base (2 ^ 22) = 0 := by
  have inexact : base % 2 ^ 22 ≠ 0 := fun multiple =>
    wraps (by rw [Word32.roundUp_of_mod_eq_zero multiple]; exact word)
  have mask : Word32.sub (2 ^ 22) 1 = 2 ^ 22 - 1 := Word32.sub_eq (by decide) (by decide)
  rw [Word32.roundUp_of_mod_ne_zero inexact] at wraps
  unfold align
  rw [mask, Word32.and_not_low (by decide) word, Word32.and_low, if_pos inexact]
  unfold Word32.add
  omega

/-- With less than 1024 tables and memory for them, `n_new_tables` is zero. -/
theorem newTables_eq_zero {base n : ℕ} (word : base < 2 ^ 32) (pos : 0 < n) (few : n < pageEntries)
    (next : base + n * pageSize < 2 ^ 32)
    (memory : base + (n + newTables base (base + n * pageSize)) * pageSize ≤ 2 ^ 32) :
    newTables base (base + n * pageSize) = 0 := by
  have region : pageEntries * pageSize = 2 ^ 22 := rfl
  unfold newTables at *
  rw [region] at memory ⊢
  dsimp only at memory ⊢
  by_cases fits : Word32.roundUp 22 base < 2 ^ 32
  · rw [align_eq_roundUp (by decide) fits word]
    split_ifs with before
    · rfl
    · have le : base ≤ Word32.roundUp 22 base := by
        unfold Word32.roundUp
        omega
      rw [Word32.sub_eq (not_lt.mp before) next]
      refine Nat.div_eq_of_lt ?_
      unfold pageEntries pageSize at *
      omega
  · -- Then there is not enough memory behind `base` for the tables the code asks for.
    rw [align_region_of_wrap word fits, if_neg (Nat.not_lt_zero _),
      Word32.sub_eq (Nat.zero_le _) next, Nat.sub_zero] at memory
    have high : 2 ^ 32 - 2 ^ 22 < base := by
      unfold Word32.roundUp at fits
      omega
    unfold pageSize at *
    omega

/-- No table is missing for the page tables, so they take the frames they were made in. -/
theorem LinkSymbols.Linked.tablesSize_eq (linked : sym.Linked) (few : sym.tableCount < pageEntries)
    (next : sym.tableAt sym.tableCount < 2 ^ 32) :
    sym.tablesSize = sym.tableCount * pageSize := by
  have memory := linked.memory
  have enough : sym.kernelEndPma + sym.tablesSize ≤ 2 ^ 32 := by
    rw [linked.kernelEndPma_eq]
    omega
  rw [LinkSymbols.tablesSize, Nat.mod_eq_of_lt next] at enough ⊢
  unfold LinkSymbols.tableAt at next enough ⊢
  rw [newTables_eq_zero linked.kernelEndPma_lt (LinkSymbols.Linked.tableCount_pos sym) few next
    enough, Nat.add_zero]

/-- When they are not covered, one of the tables is made for the tables themselves, behind
all that the code counts. -/
theorem Finished.uncovered (finished : Finished sym dirs s) (linked : sym.Linked)
    (more : ¬ Segment.touched (pageEntries * pageSize) sym.tablesSegment ⊆ sym.fixedRegions) :
    sym.tableCount < dirs.length ∧ sym.tableCount < pageEntries ∧
      sym.tablesSize = sym.tableCount * pageSize := by
  have before : sym.tableCount < dirs.length :=
    finished.length_eq ▸ LinkSymbols.lt_card_allRegions more
  have few : dirs.length ≤ pageEntries := by
    have subset : dirs ⊆ List.range pageEntries := fun idx member =>
      List.mem_range.mpr (finished.below idx member)
    have le := (List.subperm_of_subset finished.nodup subset).length_le
    rwa [List.length_range] at le
  have next : sym.tableAt sym.tableCount < 2 ^ 32 := by
    have room := linked.allRoom
    rw [← finished.length_eq] at room
    unfold LinkSymbols.tableAt pageSize at *
    omega
  exact ⟨before, before.trans_le few, linked.tablesSize_eq (before.trans_le few) next⟩

/-- **The lookup table is wrong** when they are not: a table that is made for the page
tables is looked up where the heap starts, and the page of the stack is mapped. -/
theorem Finished.covered (finished : Finished sym dirs s) (linked : sym.Linked)
    (kept : LookupKept sym s) : sym.TablesCovered := by
  have bound := linked.bssEnd_bound
  have stack := linked.stack
  constructor
  · by_contra more
    obtain ⟨before, -, size⟩ := finished.uncovered linked more
    obtain ⟨idx, found⟩ : ∃ idx, dirs[sym.tableCount]? = some idx :=
      ⟨_, List.getElem?_eq_getElem before⟩
    have small : idx < pageEntries := finished.below idx (List.mem_of_getElem? found)
    have word : sym.bssEnd + 3 * pageSize + sym.tableCount * pageSize < 2 ^ 32 := by
      rw [size] at bound
      unfold pageSize at bound ⊢
      omega
    have above := kept.above idx small (finished.present linked found)
    rw [finished.lookup_eq found word, finished.heap, LinkSymbols.heapStart,
      size] at above
    exact lt_irrefl _ above
  · by_contra top
    have last : sym.heapStart = 2 ^ 32 - pageSize := le_antisymm stack (not_lt.mp top)
    have word : sym.heapStart < 2 ^ 32 := by
      rw [last]
      decide
    have unmapped := kept.unmapped
    rw [finished.heap, finished.walks _ word, Segment.translate_eq_none] at unmapped
    refine unmapped ⟨2 ^ 32 - pageSize, pageSize, sym.stackPage, pageWrite ||| pagePresent⟩
      (List.mem_of_getElem? (i := 5) rfl) ⟨last.ge, ?_⟩
    rw [last]
    have pos : 0 < pageSize := by decide
    exact Nat.lt_add_of_pos_right pos

end Finish

/-- **When boot leaves the lookup table right.**  The lookup entry of a region is written when its
table is made, from the order in which the tables were made so far, while the tables themselves
are mapped at the end, one behind the other.  The last of these mappings can need a table of its
own, which comes too late to be mapped: `TablesCovered` says that it does not, in terms of the
symbols of the linker script alone. -/
theorem lookupKept_iff {sym : LinkSymbols} {s : InitState} {fuel : ℕ} (linked : sym.Linked)
    (loaded : s.Loaded sym) (enough : pageEntries * pageEntries < fuel) :
    ∃ t, initMapKernel sym fuel s = .ok ((), t) ∧ (LookupKept sym t ↔ sym.TablesCovered) := by
  obtain ⟨t, dirs, run, finished⟩ := loaded.finished linked enough
  exact ⟨t, run, finished.covered linked, finished.kept linked⟩

/-- A kernel of 64 KiB. -/
theorem lookupKept_small :
    ∃ t, initMapKernel smallLink (2 ^ 21) freshInit = .ok ((), t) ∧
      (LookupKept smallLink t ↔ smallLink.TablesCovered) :=
  lookupKept_iff smallLink_linked (freshInit_loaded smallLink) (by decide)

/-- A kernel whose last page table is in the next 4 MiB region. -/
def crossingLink : LinkSymbols :=
  ⟨0x100000, 0x101000, 0x105000, 0xE0000000, 0xE0000000, 0xE0100000, 0xE03FC000, 0xE03FC000⟩

/-- The second of its three page tables is mapped in a region without a page table: the one
that is made for it has the address at which the heap starts. -/
theorem lookup_of_crossing :
    crossingLink.Linked ∧ freshInit.Loaded crossingLink ∧
      ∃ t, initMapKernel crossingLink (2 ^ 21) freshInit = .ok ((), t) ∧
        ¬ LookupKept crossingLink t := by
  have linked : crossingLink.Linked := by constructor <;> decide +kernel
  have loaded := freshInit_loaded crossingLink
  obtain ⟨t, dirs, run, finished⟩ := loaded.finished linked (show _ < 2 ^ 21 by decide)
  exact ⟨linked, loaded, t, run, fun kept =>
    absurd (finished.covered linked kept) (by decide +kernel)⟩

end TrashOS
