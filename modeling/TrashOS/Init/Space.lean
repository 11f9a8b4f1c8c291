import TrashOS.Init.Built
import TrashOS.Lib.Segments

/-!
# The address space `init_map_kernel` builds

The calls of `init_page_map` map eight ranges one after the other, each to a range of
physical addresses of the same size: the `segments` of the linker symbols.  While they
do, the map is that of the segments that are finished, with the beginning of the next one
(`Mapped.segment`), and whatever an earlier call mapped stays mapped to the same frame
(`Mapped.kept`).

`bootSpace_exact` is the result: the processor finds exactly what the segments say.

## The parts of the argument

* `Mapped` is the invariant of all the loops: which pages are mapped to which frames so far,
  which directory entries have a table, in which order the tables were made, and that all
  of them lie behind the kernel image.  A page that is mapped twice would break it, so the
  segments must not meet (`Linked`).
* `Mapped.grow` is one call of `init_page_map`, with the two cases of a region that has a
  table and one that has none.
* `InitState.Loaded.runs` composes the eight loops.  The last of them maps the page tables
  themselves, and may make one more; that case is the subject of `Init.Lookup`.
-/

namespace TrashOS

/-! ## The layout -/

namespace LinkSymbols

variable (sym : LinkSymbols)

/-- What is mapped before the page tables. -/
def fixedSegments : List (Segment ℕ) :=
  [ -- the init section
    ⟨sym.initStart, sym.initBssEnd - sym.initStart, sym.initStart, pageWrite ||| pagePresent⟩,
    -- .text and .rodata
    ⟨sym.textStart, sym.rodataEnd - sym.textStart, sym.initBssEnd, pagePublic ||| pagePresent⟩,
    -- .data and .bss
    ⟨sym.rodataEnd, sym.bssEnd - sym.rodataEnd, sym.initBssEnd + (sym.rodataEnd - sym.textStart),
      pagePublic ||| pageWrite ||| pagePresent⟩,
    -- page_dir, page_table_lookup and stack_page
    ⟨sym.bssEnd, pageSize, sym.pageDir 0, pageWrite ||| pagePresent⟩,
    ⟨sym.bssEnd + pageSize, pageSize, sym.pageTableLookup 0, pageWrite ||| pagePresent⟩,
    ⟨2 ^ 32 - pageSize, pageSize, sym.stackPage, pageWrite ||| pagePresent⟩,
    -- the VGA buffer
    ⟨sym.bssEnd + 2 * pageSize, pageSize, vgaPaddrBuffer,
      pagePublic ||| pageWrite ||| pagePresent⟩ ]

/-- The number of page tables these need: one for each 4 MiB region. -/
def tableCount : ℕ := (Segment.regions (pageEntries * pageSize) sym.fixedSegments).card

/-- `init_alloc_size + n_new_tables * PAGE_SIZE` -/
def tablesSize : ℕ :=
  (sym.tableCount + newTables sym.kernelEndPma (sym.tableAt sym.tableCount % 2 ^ 32)) * pageSize

/-- The page tables. -/
def tablesSegment : Segment ℕ :=
  ⟨sym.bssEnd + 3 * pageSize, sym.tablesSize, sym.kernelEndPma, pageWrite ||| pagePresent⟩

/-- What is mapped. -/
def segments : List (Segment ℕ) := sym.fixedSegments ++ [sym.tablesSegment]

/-- The first address behind the page tables, where the heap starts. -/
def heapStart : ℕ := sym.bssEnd + 3 * pageSize + sym.tablesSize

/-- The regions with a page table at the end. -/
def allRegions : Finset ℕ := Segment.regions (pageEntries * pageSize) sym.segments

/-- **A layout of the linker script.**  Everything is in whole pages, the init section lies
below the kernel, and the ranges above the kernel end at the page of the stack at the
latest.  There is memory behind the kernel for the page tables. -/
structure Linked : Prop where
  start : sym.initStart % pageSize = 0
  struct : sym.initPageStruct % pageSize = 0
  initBss : sym.initBssEnd % pageSize = 0
  rodata : sym.rodataEnd % pageSize = 0
  bss : sym.bssEnd % pageSize = 0
  startStruct : sym.initStart ≤ sym.initPageStruct
  structBss : sym.stackPage + pageSize ≤ sym.initBssEnd
  bssKernel : sym.initBssEnd ≤ kernelStartVma
  kernelStart : sym.kernelStart = kernelStartVma
  textStart : sym.textStart = kernelStartVma
  textRodata : sym.textStart ≤ sym.rodataEnd
  rodataBss : sym.rodataEnd ≤ sym.bssEnd
  kernelEnd : sym.kernelEnd = sym.bssEnd
  stack : sym.heapStart ≤ 2 ^ 32 - pageSize
  memory : sym.initBssEnd + (sym.bssEnd - kernelStartVma) +
    max (sym.allRegions.card * pageSize) sym.tablesSize ≤ 2 ^ 32

end LinkSymbols

/-- The variables of `init.c` when the kernel is loaded. -/
structure InitState.Loaded (sym : LinkSymbols) (s : InitState) : Prop where
  dir : ∀ idx < pageEntries, s.mem (sym.pageDir idx) = 0
  lookup : ∀ idx < pageEntries, s.mem (sym.pageTableLookup idx) = 0
  offset : s.tableVmaOffset = pageSize
  maps : s.maps = []

/-! ## The loop -/

/-- **The loop rule.** -/
theorem forPages_runs {bound i n : ℕ} {body : ℕ → InitM Unit} {motive : ℕ → InitState → Prop}
    {s : InitState} (before : ∀ k < n, i + k * pageSize < bound) (behind : bound ≤ i + n * pageSize)
    (word : i + n * pageSize < 2 ^ 32) (start : motive 0 s)
    (step : ∀ k < n, ∀ t, motive k t →
      ∃ t', body (i + k * pageSize) t = .ok ((), t') ∧ motive (k + 1) t') {fuel : ℕ}
    (enough : n < fuel) :
    ∃ t, forPages bound body fuel i s = .ok (i + n * pageSize, t) ∧ motive n t := by
  induction n generalizing i motive s fuel with
  | zero =>
      obtain ⟨fuel, rfl⟩ := Nat.exists_eq_succ_of_ne_zero (Nat.ne_of_gt enough)
      rw [Nat.zero_mul, Nat.add_zero] at *
      refine ⟨s, ?_, start⟩
      rw [forPages, if_neg (not_lt.mpr behind)]
      rfl
  | succ n ih =>
      obtain ⟨fuel, rfl⟩ := Nat.exists_eq_succ_of_ne_zero (Nat.ne_of_gt (Nat.zero_lt_of_lt enough))
      have first := before 0 n.succ_pos
      obtain ⟨t, run, holds⟩ := step 0 n.succ_pos s start
      rw [Nat.zero_mul, Nat.add_zero] at first run
      have shift : ∀ k, i + pageSize + k * pageSize = i + (k + 1) * pageSize := fun k => by
        rw [Nat.succ_mul]
        omega
      have next : Word32.add i pageSize = i + pageSize :=
        Word32.add_eq (by have := shift n; omega)
      obtain ⟨t', rest, final⟩ := ih (i := i + pageSize) (s := t)
        (motive := fun k => motive (k + 1))
        (fun k small => shift k ▸ before (k + 1) (by omega)) (shift n ▸ behind) (shift n ▸ word)
        holds (fun k small u at_ => shift k ▸ step (k + 1) (by omega) u at_)
        (Nat.lt_of_succ_lt_succ enough)
      refine ⟨t', ?_, final⟩
      rw [forPages, if_pos first, Prog.bind_of_ok run, next, rest, shift]

/-! ## Segment by segment -/

/-- The map of a list of segments, by page number. -/
def pageMap (segs : List (Segment ℕ)) (page : ℕ) : Option (ℕ × ℕ) :=
  Segment.translate segs (page * pageSize)

/-- What was mapped is still mapped to the same frame with the same flags. -/
def KeepsMapped (dir : ℕ) (earlier later : ℕ → ℕ) : Prop :=
  ∀ v < 2 ^ 32, ∀ x, walk earlier dir v = some x → walk later dir v = some x

/-- **The order of the tables**: there is one for each region that the segments touch, and
those of the first segments come first. -/
structure MadeInOrder (dirs : List ℕ) (segs : List (Segment ℕ)) : Prop where
  whole : dirs.toFinset = Segment.regions (pageEntries * pageSize) segs
  early : ∀ front, front <+: segs → ∃ early, early <+: dirs ∧
    early.toFinset = Segment.regions (pageEntries * pageSize) front

/-- **The map is that of the segments**, with tables for regions of `U` only, made in the
order of the segments, and no call of `init_page_map` has changed what an earlier one
mapped. -/
structure Mapped (sym : LinkSymbols) (U : Finset ℕ) (segs : List (Segment ℕ))
    (s : InitState) : Prop where
  built : ∃ dirs, Built sym dirs (pageMap segs) s ∧ MadeInOrder dirs segs ∧ ∀ idx ∈ dirs, idx ∈ U
  kept : s.maps.Pairwise fun later earlier => KeepsMapped sym.initPageStruct earlier later
  last : ∀ mem ∈ s.maps, KeepsMapped sym.initPageStruct mem s.mem

/-- Whole pages of the address space with the flags of a present entry. -/
structure WholePages (seg : Segment ℕ) : Prop where
  start : seg.start % pageSize = 0
  size : seg.size % pageSize = 0
  target : seg.target % pageSize = 0
  bound : seg.start + seg.size ≤ 2 ^ 32
  frames : seg.target + seg.size ≤ 2 ^ 32
  low : seg.attr < pageSize
  present : entryPresent seg.attr = true

theorem WholePages.of {start size target attr : ℕ}
    (aligned : start % pageSize = 0 ∧ size % pageSize = 0 ∧ target % pageSize = 0)
    (bounds : start + size ≤ 2 ^ 32 ∧ target + size ≤ 2 ^ 32)
    (flags : attr < pageSize ∧ entryPresent attr = true) :
    WholePages ⟨start, size, target, attr⟩ :=
  ⟨aligned.1, aligned.2.1, aligned.2.2, bounds.1, bounds.2, flags.1, flags.2⟩

/-- A segment that can be mapped next: whole pages that no other segment has, in regions
of `U`. -/
structure Placed (U : Finset ℕ) (segs : List (Segment ℕ)) (seg : Segment ℕ) : Prop
    extends WholePages seg where
  apart : ∀ seg' ∈ segs, Segment.Apart seg' seg
  regions : ∀ v, seg.Contains v → v / (pageEntries * pageSize) ∈ U

section Segments

variable {sym : LinkSymbols} {U : Finset ℕ} {segs : List (Segment ℕ)} {seg : Segment ℕ}
  {s : InitState} {k : ℕ}

/-- One page more. -/
theorem pageMap_grow (placed : Placed U segs seg) (inside : k * pageSize < seg.size) :
    pageMap (segs ++ [seg.take ((k + 1) * pageSize)]) =
      Function.update (pageMap (segs ++ [seg.take (k * pageSize)])) (seg.start / pageSize + k)
        (some (seg.target + k * pageSize, seg.attr)) := by
  have start : seg.start / pageSize * pageSize = seg.start :=
    Nat.div_mul_cancel (Nat.dvd_of_mod_eq_zero placed.start)
  have number : (seg.start / pageSize + k) * pageSize = seg.start + k * pageSize := by
    rw [Nat.add_mul, start]
  funext page
  unfold pageMap
  by_cases here : page = seg.start / pageSize + k
  · have contained : seg.Contains (seg.start + k * pageSize) :=
      ⟨Nat.le_add_right _ _, Nat.add_lt_add_left inside _⟩
    have none : Segment.translate segs (seg.start + k * pageSize) = none :=
      Segment.translate_eq_none.mpr fun seg' member own =>
        placed.apart seg' member _ own contained
    have grown : (seg.take ((k + 1) * pageSize)).Contains (seg.start + k * pageSize) := by
      refine Segment.take_contains.mpr ⟨Nat.le_add_right _ _, ?_⟩
      unfold pageSize
      omega
    rw [here, Function.update_self, number, Segment.translate_take_of_contains none grown,
      Segment.image, Nat.add_sub_cancel_left]
  · rw [Function.update_of_ne here]
    refine Segment.translate_take_congr ?_
    rw [Segment.take_contains, Segment.take_contains]
    unfold pageSize at *
    omega

/-- The directory needs no more tables than there are regions. -/
theorem Built.room {dirs : List ℕ} {map : ℕ → Option (ℕ × ℕ)} {idx : ℕ}
    (built : Built sym dirs map s) (room : sym.tableAt U.card ≤ 2 ^ 32)
    (within : ∀ i ∈ dirs, i ∈ U) (member : idx ∈ U) (fresh : idx ∉ dirs) :
    sym.tableAt (dirs.length + 1) ≤ 2 ^ 32 := by
  have nodup : (idx :: dirs).Nodup := List.nodup_cons.mpr ⟨fresh, built.nodup⟩
  have sub : (idx :: dirs).toFinset ⊆ U := fun i inList =>
    (List.mem_cons.mp (List.mem_toFinset.mp inList)).elim (fun same => same ▸ member) (within i)
  have card := Finset.card_le_card sub
  rw [List.toFinset_card_of_nodup nodup, List.length_cons] at card
  refine le_trans (Nat.add_le_add_left (Nat.mul_le_mul_right _ card) _) room

/-- The tables with those of one segment more. -/
theorem MadeInOrder.snoc {dirs dirs' : List ℕ} {old new : Segment ℕ}
    (order : MadeInOrder dirs (segs ++ [old])) (longer : dirs <+: dirs')
    (whole : dirs'.toFinset = Segment.regions (pageEntries * pageSize) (segs ++ [new])) :
    MadeInOrder dirs' (segs ++ [new]) := by
  refine ⟨whole, fun front isPrefix => ?_⟩
  rcases List.prefix_concat_iff.mp isPrefix with rfl | before
  · exact ⟨dirs', List.prefix_refl _, whole⟩
  · obtain ⟨early, first, regions⟩ := order.early front (before.trans (List.prefix_append _ _))
    exact ⟨early, first.trans longer, regions⟩

theorem MadeInOrder.take_zero {dirs : List ℕ} (order : MadeInOrder dirs segs) (seg : Segment ℕ) :
    MadeInOrder dirs (segs ++ [seg.take 0]) := by
  have same : Segment.regions (pageEntries * pageSize) (segs ++ [seg.take 0]) =
      Segment.regions (pageEntries * pageSize) segs := by
    ext idx
    rw [Segment.mem_regions (by decide), Segment.mem_regions (by decide)]
    refine ⟨fun ⟨seg', member, v, inside, region⟩ => ?_, fun ⟨seg', member, inside⟩ =>
      ⟨seg', List.mem_append_left _ member, inside⟩⟩
    rcases List.mem_append.mp member with old | none
    · exact ⟨seg', old, v, inside, region⟩
    · rw [List.mem_singleton.mp none, Segment.take_contains] at inside
      omega
  refine ⟨order.whole.trans same.symm, fun front isPrefix => ?_⟩
  rcases List.prefix_concat_iff.mp isPrefix with rfl | before
  · exact ⟨dirs, List.prefix_refl _, order.whole.trans same.symm⟩
  · exact order.early front before

/-- The regions with one page more. -/
theorem regions_grow (placed : Placed U segs seg) {idx : ℕ} :
    idx ∈ Segment.regions (pageEntries * pageSize) (segs ++ [seg.take ((k + 1) * pageSize)]) ↔
      idx ∈ Segment.regions (pageEntries * pageSize) (segs ++ [seg.take (k * pageSize)]) ∨
        idx = (seg.start / pageSize + k) / pageEntries := by
  have start := placed.start
  have pos : 0 < pageEntries * pageSize := by decide
  rw [Segment.mem_regions pos, Segment.mem_regions pos]
  constructor
  · rintro ⟨seg', member, v, own, rfl⟩
    rcases List.mem_append.mp member with old | new
    · exact Or.inl ⟨seg', List.mem_append_left _ old, v, own, rfl⟩
    · rw [List.mem_singleton.mp new, Segment.take_contains] at own
      by_cases before : v < seg.start + k * pageSize
      · exact Or.inl ⟨seg.take (k * pageSize), List.mem_append_right _ List.mem_cons_self, v,
          ⟨own.1, before⟩, rfl⟩
      · refine Or.inr ?_
        have page : v / pageSize = seg.start / pageSize + k := by
          unfold pageSize at *
          omega
        rw [Nat.mul_comm pageEntries, ← Nat.div_div_eq_div_mul, page]
  · rintro (⟨seg', member, v, own, rfl⟩ | rfl)
    · rcases List.mem_append.mp member with old | new
      · exact ⟨seg', List.mem_append_left _ old, v, own, rfl⟩
      · rw [List.mem_singleton.mp new, Segment.take_contains] at own
        refine ⟨seg.take ((k + 1) * pageSize), List.mem_append_right _ List.mem_cons_self, v,
          ⟨own.1, ?_⟩, rfl⟩
        change v < seg.start + (k + 1) * pageSize
        unfold pageSize at *
        omega
    · refine ⟨seg.take ((k + 1) * pageSize), List.mem_append_right _ List.mem_cons_self,
        seg.start + k * pageSize, ⟨Nat.le_add_right _ _, ?_⟩, ?_⟩
      · change seg.start + k * pageSize < seg.start + (k + 1) * pageSize
        unfold pageSize
        omega
      · rw [Nat.mul_comm pageEntries, ← Nat.div_div_eq_div_mul,
          Nat.add_mul_div_right _ _ (by decide)]

/-- **One call of `init_page_map`.** -/
theorem Mapped.grow (behind : sym.TablesBehind) (room : sym.tableAt U.card ≤ 2 ^ 32)
    (mapped : Mapped sym U (segs ++ [seg.take (k * pageSize)]) s) (placed : Placed U segs seg)
    (inside : k * pageSize < seg.size) :
    ∃ t, initPageMap sym (seg.start + k * pageSize) (seg.target + k * pageSize) seg.attr s =
        .ok ((), t) ∧ Mapped sym U (segs ++ [seg.take ((k + 1) * pageSize)]) t ∧
      t.nextVma = s.nextVma := by
  obtain ⟨dirs, built, order, within⟩ := mapped.built
  have start := placed.start
  have size := placed.size
  have bound := placed.bound
  have frames := placed.frames
  have vma : (seg.start / pageSize + k) * pageSize = seg.start + k * pageSize := by
    rw [Nat.add_mul, Nat.div_mul_cancel (Nat.dvd_of_mod_eq_zero start)]
  have contained : seg.Contains (seg.start + k * pageSize) :=
    ⟨Nat.le_add_right _ _, Nat.add_lt_add_left inside _⟩
  have region : (seg.start / pageSize + k) / pageEntries ∈ U := by
    have inU := placed.regions _ contained
    rw [← vma, Nat.mul_comm pageEntries, ← Nat.div_div_eq_div_mul,
      Nat.mul_div_cancel _ (by decide)] at inU
    exact inU
  have fresh : pageMap (segs ++ [seg.take (k * pageSize)]) (seg.start / pageSize + k) = none := by
    unfold pageMap
    rw [vma, Segment.translate_eq_none]
    intro seg' member own
    rcases List.mem_append.mp member with old | new
    · exact placed.apart seg' old _ own contained
    · rw [List.mem_singleton.mp new, Segment.take_contains] at own
      omega
  have entry : IsEntry (seg.target + k * pageSize) seg.attr := by
    have target := placed.target
    refine ⟨?_, by unfold pageSize at *; omega, placed.low, placed.present⟩
    rw [Nat.add_mul_mod_self_right]
    exact target
  obtain ⟨t, dirs', run, built', longer, news, maps, nextVma⟩ := built.mapped behind
    (by unfold pageEntries pageSize at *; omega) fresh entry
    (built.room room within region)
  -- the page that was mapped has a table now
  have made : (seg.start / pageSize + k) / pageEntries ∈ dirs' := by
    by_contra missing
    have none := built'.covered _ missing
    rw [Function.update_self] at none
    cases none
  rw [vma] at run
  rw [← pageMap_grow placed inside] at built'
  have order' : MadeInOrder dirs' (segs ++ [seg.take ((k + 1) * pageSize)]) := by
    refine order.snoc longer (Finset.ext fun idx => ?_)
    rw [List.mem_toFinset, regions_grow placed, ← order.whole, List.mem_toFinset]
    exact ⟨news idx, fun either => either.elim (fun old => longer.subset old) fun same => same ▸ made⟩
  have keeps : KeepsMapped sym.initPageStruct s.mem t.mem := fun v word x found => by
    rw [built.walk_eq behind word] at found
    rw [built'.walk_eq behind word]
    obtain ⟨entry', there, rfl⟩ := Option.map_eq_some_iff.mp found
    have other : v / pageSize ≠ seg.start / pageSize + k := fun same => by
      rw [same, fresh] at there
      cases there
    rw [pageMap_grow placed inside, Function.update_of_ne other, there]
    rfl
  have refl : ∀ mem, KeepsMapped sym.initPageStruct mem mem := fun mem v _ x => id
  refine ⟨t, run, ⟨⟨dirs', built', order', fun idx member => ?_⟩, ?_, fun mem member => ?_⟩,
    nextVma⟩
  · exact (news idx member).elim (within idx) fun same => same ▸ region
  · rw [maps]
    exact List.pairwise_cons.mpr ⟨fun mem member v word x found =>
      keeps v word x (mapped.last mem member v word x found), mapped.kept⟩
  · rw [maps] at member
    rcases List.mem_cons.mp member with rfl | old
    · exact refl t.mem
    · exact fun v word x found => keeps v word x (mapped.last mem old v word x found)

theorem Mapped.take_zero (mapped : Mapped sym U segs s) (seg : Segment ℕ) :
    Mapped sym U (segs ++ [seg.take 0]) s := by
  have same : pageMap (segs ++ [seg.take 0]) = pageMap segs :=
    funext fun page => Segment.translate_take_zero segs seg (page * pageSize)
  obtain ⟨dirs, built, order, within⟩ := mapped.built
  exact ⟨⟨dirs, same ▸ built, order.take_zero seg, within⟩, mapped.kept, mapped.last⟩

/-- **A loop over the pages of a segment**, whose bound lies in the last of them. -/
theorem Mapped.segment {bound i fuel : ℕ} (body : ℕ → InitM Unit) (behind : sym.TablesBehind)
    (room : sym.tableAt U.card ≤ 2 ^ 32) (mapped : Mapped sym U segs s)
    (placed : Placed U segs seg) (after : bound ≤ i + seg.size)
    (before : i + seg.size < bound + pageSize) (word : i + seg.size < 2 ^ 32)
    (enough : pageEntries * pageEntries < fuel)
    (maps : ∀ a < seg.size, ∀ t, t.nextVma = s.nextVma →
      body (i + a) t = initPageMap sym (seg.start + a) (seg.target + a) seg.attr t) :
    ∃ t, forPages bound body fuel i s = .ok (i + seg.size, t) ∧
      Mapped sym U (segs ++ [seg]) t ∧ t.nextVma = s.nextVma := by
  have size := placed.size
  have pages : seg.size / pageSize * pageSize = seg.size :=
    Nat.div_mul_cancel (Nat.dvd_of_mod_eq_zero size)
  have inside : ∀ k < seg.size / pageSize, k * pageSize + pageSize ≤ seg.size := fun k small => by
    rw [← Nat.succ_mul, ← pages]
    exact Nat.mul_le_mul_right _ small
  have pos : 0 < pageSize := by decide
  have inBound : ∀ k < seg.size / pageSize, i + k * pageSize < bound := fun k small => by
    have := inside k small
    omega
  have turns : seg.size / pageSize < fuel := by
    have last := placed.bound
    unfold pageEntries pageSize at *
    omega
  have start := mapped.take_zero seg
  rw [← Nat.zero_mul pageSize] at start
  obtain ⟨t, run, final, nextVma⟩ := forPages_runs
    (motive := fun k t => Mapped sym U (segs ++ [seg.take (k * pageSize)]) t ∧
      t.nextVma = s.nextVma) inBound (by rw [pages]; exact after) (by rw [pages]; exact word)
    ⟨start, rfl⟩ (fun k small t holds => by
      obtain ⟨mapped', nextVma⟩ := holds
      have next : k * pageSize < seg.size := by
        have := inside k small
        omega
      obtain ⟨t', run, grown, same⟩ := mapped'.grow behind room placed next
      exact ⟨t', (maps _ next t nextVma).trans run, grown, same.trans nextVma⟩) turns
  rw [pages] at run
  rw [pages, Segment.take_size] at final
  exact ⟨t, run, final, nextVma⟩

/-- A single page. -/
theorem Mapped.page (behind : sym.TablesBehind) (room : sym.tableAt U.card ≤ 2 ^ 32)
    (mapped : Mapped sym U segs s) (placed : Placed U segs seg) (single : seg.size = pageSize) :
    ∃ t, initPageMap sym seg.start seg.target seg.attr s = .ok ((), t) ∧
      Mapped sym U (segs ++ [seg]) t ∧ t.nextVma = s.nextVma := by
  have start := mapped.take_zero seg
  rw [← Nat.zero_mul pageSize] at start
  obtain ⟨t, run, grown, nextVma⟩ := start.grow behind room placed (by
    rw [single, Nat.zero_mul]
    decide)
  rw [Nat.zero_mul, Nat.add_zero, Nat.add_zero] at run
  rw [Nat.zero_add, Nat.one_mul, ← single, Segment.take_size] at grown
  exact ⟨t, run, grown, nextVma⟩

end Segments

/-! ## The segments of a layout -/

namespace LinkSymbols.Linked

variable {sym : LinkSymbols} (linked : sym.Linked)

include linked

omit linked in
theorem tableCount_pos (sym : LinkSymbols) : 0 < sym.tableCount := by
  refine Finset.card_pos.mpr ⟨sym.bssEnd / (pageEntries * pageSize), ?_⟩
  refine (Segment.mem_regions (by decide)).mpr ⟨⟨sym.bssEnd, pageSize, sym.pageDir 0,
    pageWrite ||| pagePresent⟩, by simp [fixedSegments], sym.bssEnd, ⟨le_rfl, ?_⟩, rfl⟩
  have pos : 0 < pageSize := by decide
  exact Nat.lt_add_of_pos_right pos

theorem kernelEndPma_eq : sym.kernelEndPma = sym.initBssEnd + (sym.bssEnd - kernelStartVma) := by
  have memory := linked.memory
  have stack := linked.stack
  have textRodata := linked.textRodata
  have rodataBss := linked.rodataBss
  have kernelStart := linked.kernelStart
  have tables : pageSize ≤ sym.tablesSize :=
    Nat.le_mul_of_pos_left _ (Nat.add_pos_left (tableCount_pos sym) _)
  rw [linked.textStart] at textRodata
  unfold LinkSymbols.kernelEndPma
  rw [linked.kernelEnd, kernelStart]
  unfold heapStart pageSize at *
  rw [Word32.sub_eq (textRodata.trans rodataBss) (by omega), Word32.add_eq (by omega)]
  exact Nat.add_comm _ _

theorem tablesBehind : sym.TablesBehind := by
  have initBss := linked.initBss
  have bss := linked.bss
  have structBss := linked.structBss
  constructor
  · rw [linked.kernelEndPma_eq]
    unfold pageSize kernelStartVma at *
    omega
  · rw [linked.kernelEndPma_eq]
    unfold stackPage at structBss
    omega

theorem wholePages : ∀ seg ∈ sym.segments, WholePages seg := by
  have flags₁ : pageWrite ||| pagePresent < pageSize ∧
      entryPresent (pageWrite ||| pagePresent) = true := by decide
  have flags₂ : pagePublic ||| pagePresent < pageSize ∧
      entryPresent (pagePublic ||| pagePresent) = true := by decide
  have flags₃ : pagePublic ||| pageWrite ||| pagePresent < pageSize ∧
      entryPresent (pagePublic ||| pageWrite ||| pagePresent) = true := by decide
  have start := linked.start
  have struct := linked.struct
  have initBss := linked.initBss
  have rodata := linked.rodata
  have bss := linked.bss
  have startStruct := linked.startStruct
  have structBss := linked.structBss
  have bssKernel := linked.bssKernel
  have textStart := linked.textStart
  have textRodata := linked.textRodata
  have rodataBss := linked.rodataBss
  have stack := linked.stack
  have memory := linked.memory
  have kernelEndPma := linked.kernelEndPma_eq
  have tables : sym.tablesSize % pageSize = 0 := Nat.mul_mod_left _ _
  unfold heapStart at stack
  unfold stackPage at structBss
  unfold pageSize kernelStartVma at *
  intro seg member
  simp only [segments, fixedSegments, List.mem_append, List.mem_cons, List.not_mem_nil,
    or_false] at member
  obtain (rfl | rfl | rfl | rfl | rfl | rfl | rfl) | rfl := member
  · exact .of (by unfold pageSize; omega) (by omega) flags₁
  · exact .of (by unfold pageSize; omega) (by omega) flags₂
  · exact .of (by unfold pageSize; omega) (by omega) flags₃
  · exact .of (by unfold pageDir pageSize; omega) (by unfold pageDir pageSize; omega) flags₁
  · exact .of (by unfold pageTableLookup pageSize; omega)
      (by unfold pageTableLookup pageSize; omega) flags₁
  · exact .of (by unfold stackPage pageSize; omega) (by unfold stackPage pageSize; omega) flags₁
  · exact .of (by unfold vgaPaddrBuffer pageSize; omega)
      (by unfold vgaPaddrBuffer pageSize; omega) flags₃
  · exact .of (by unfold pageSize; omega) (by unfold pageSize; omega) flags₁

/-- The bounds of the ranges in the order of the addresses. -/
theorem ordered : sym.initStart ≤ sym.initBssEnd ∧ sym.initBssEnd ≤ sym.textStart ∧
    sym.textStart ≤ sym.rodataEnd ∧ sym.rodataEnd ≤ sym.bssEnd ∧
    sym.bssEnd + 3 * pageSize + sym.tablesSize ≤ 2 ^ 32 - pageSize := by
  have startStruct := linked.startStruct
  have structBss := linked.structBss
  unfold stackPage at structBss
  exact ⟨by omega, linked.bssKernel.trans linked.textStart.ge, linked.textRodata,
    linked.rodataBss, linked.stack⟩

/-- No two ranges meet. -/
theorem apart : sym.segments.Pairwise Segment.Apart := by
  obtain ⟨init, kernel, rodata, bss, stack⟩ := linked.ordered
  simp only [segments, fixedSegments, tablesSegment, List.cons_append, List.nil_append,
    List.pairwise_cons, List.forall_mem_cons, List.not_mem_nil, IsEmpty.forall_iff, implies_true,
    List.Pairwise.nil, and_true]
  unfold pageSize at *
  and_intros <;> exact Segment.apart_of (by omega)

/-- A segment between those that were mapped and those that will be. -/
theorem placed {front back : List (Segment ℕ)} {seg : Segment ℕ} {U : Finset ℕ}
    (split : sym.segments = front ++ seg :: back)
    (regions : ∀ v, seg.Contains v → v / (pageEntries * pageSize) ∈ U) : Placed U front seg where
  toWholePages := linked.wholePages seg (by rw [split]; simp)
  apart := fun seg' member => by
    have apart := linked.apart
    rw [split] at apart
    exact (List.pairwise_append.mp apart).2.2 seg' member seg List.mem_cons_self
  regions := regions

/-- Rooms for the tables of the ranges before the page tables, and of all ranges. -/
theorem fixedRoom : sym.tableAt sym.tableCount ≤ 2 ^ 32 := by
  have memory := linked.memory
  have bigger : sym.tableCount * pageSize ≤ sym.tablesSize :=
    Nat.mul_le_mul_right _ (Nat.le_add_right _ _)
  rw [tableAt, linked.kernelEndPma_eq]
  omega

theorem allRoom : sym.tableAt sym.allRegions.card ≤ 2 ^ 32 := by
  have memory := linked.memory
  rw [tableAt, linked.kernelEndPma_eq]
  omega

theorem bssEnd_bound : sym.bssEnd + 3 * pageSize + sym.tablesSize + pageSize ≤ 2 ^ 32 := by
  have stack := linked.stack
  unfold heapStart pageSize at *
  omega

theorem bssEnd_lt : sym.bssEnd < 2 ^ 32 := by
  have bound := linked.bssEnd_bound
  unfold pageSize at bound
  omega

theorem kernelEndPma_lt : sym.kernelEndPma < 2 ^ 32 := by
  have room := linked.fixedRoom
  have pos := tableCount_pos sym
  unfold tableAt pageSize at room
  omega

end LinkSymbols.Linked

section Runs

variable {sym : LinkSymbols} {U : Finset ℕ} {segs : List (Segment ℕ)} {seg : Segment ℕ}
  {s t : InitState} {k : ℕ}

/-- `Mapped` is about the memory and the two counters. -/
theorem Mapped.congr (mapped : Mapped sym U segs s) (mem : t.mem = s.mem) (maps : t.maps = s.maps)
    (nextPma : t.nextPma = s.nextPma) (offset : t.tableVmaOffset = s.tableVmaOffset) :
    Mapped sym U segs t := by
  obtain ⟨⟨dirs, built, order, within⟩, kept, last⟩ := mapped
  refine ⟨⟨dirs, ?_, order, within⟩, maps ▸ kept, ?_⟩
  · exact
      { built with
        dir := mem ▸ built.dir
        lookup := mem ▸ built.lookup
        table := mem ▸ built.table
        noDir := mem ▸ built.noDir
        noLookup := mem ▸ built.noLookup
        nextPma := nextPma ▸ built.nextPma
        offset := offset ▸ built.offset }
  · rw [maps, mem]
    exact last

theorem Mapped.mono {U' : Finset ℕ} (mapped : Mapped sym U segs s) (sub : U ⊆ U') :
    Mapped sym U' segs s := by
  obtain ⟨⟨dirs, built, order, within⟩, kept, last⟩ := mapped
  exact ⟨⟨dirs, built, order, fun idx member => sub (within idx member)⟩, kept, last⟩

/-- The beginning. -/
theorem InitState.Loaded.mapped (loaded : s.Loaded sym) (linked : sym.Linked) :
    Mapped sym U [] { s with nextPma := sym.kernelEndPma } := by
  have small := linked.kernelEndPma_lt
  have none : ∀ k idx : ℕ, ¬ ([] : List ℕ)[k]? = some idx := fun k idx found => by
    rw [List.getElem?_nil] at found
    cases found
  refine ⟨⟨[], ?_, ⟨rfl, fun front isPrefix => ⟨[], List.prefix_refl _, ?_⟩⟩,
    fun idx member => absurd member List.not_mem_nil⟩, ?_, ?_⟩
  · refine
      { nodup := List.nodup_nil
        below := fun idx member => absurd member List.not_mem_nil
        entries := fun page pma flags found => by cases found
        covered := fun page _ => rfl
        dir := fun k idx found => absurd found (none k idx)
        lookup := fun k idx found => absurd found (none k idx)
        table := fun k idx found => absurd found (none k idx)
        noDir := fun idx bound _ => loaded.dir idx bound
        noLookup := fun idx bound _ => loaded.lookup idx bound
        fits := ?_
        nextPma := ?_
        offset := loaded.offset.trans (Nat.one_mul _).symm }
    · rw [LinkSymbols.tableAt, List.length_nil, Nat.zero_mul]
      exact small.le
    · rw [LinkSymbols.tableAt, List.length_nil, Nat.zero_mul]
      exact (Nat.mod_eq_of_lt small).symm
  · rw [List.prefix_nil.mp isPrefix]
    rfl
  · rw [loaded.maps]
    exact List.Pairwise.nil
  · rw [loaded.maps]
    exact fun mem member => absurd member List.not_mem_nil

/-- With all tables that the segments need, and no others. -/
theorem Mapped.tables (mapped : Mapped sym U segs s) :
    ∃ dirs, Built sym dirs (pageMap segs) s ∧ MadeInOrder dirs segs ∧
      dirs.length = (Segment.regions (pageEntries * pageSize) segs).card := by
  obtain ⟨dirs, built, order, -⟩ := mapped.built
  refine ⟨dirs, built, order, ?_⟩
  rw [← order.whole, List.toFinset_card_of_nodup built.nodup]

/-- The segments before the page tables are some of all. -/
theorem LinkSymbols.fixedRegions_subset (sym : LinkSymbols) :
    Segment.regions (pageEntries * pageSize) sym.fixedSegments ⊆ sym.allRegions := by
  intro idx member
  obtain ⟨seg, inFixed, inside⟩ := (Segment.mem_regions (by decide)).mp member
  exact (Segment.mem_regions (by decide)).mpr ⟨seg, List.mem_append_left _ inFixed, inside⟩

/-- A segment before the page tables can be mapped when those before it are. -/
theorem LinkSymbols.Linked.placedFixed (linked : sym.Linked) {front back : List (Segment ℕ)}
    (split : sym.fixedSegments = front ++ seg :: back) :
    Placed (Segment.regions (pageEntries * pageSize) sym.fixedSegments) front seg := by
  have all : sym.segments = front ++ seg :: (back ++ [sym.tablesSegment]) := by
    rw [LinkSymbols.segments, split, List.append_assoc, List.cons_append]
  refine linked.placed all fun v inside => (Segment.mem_regions (by decide)).mpr
    ⟨seg, ?_, v, inside, rfl⟩
  rw [split]
  exact List.mem_append_right _ List.mem_cons_self

end Runs

/-! ## The lookup table -/

theorem LinkSymbols.pageTableLookup_inj {sym : LinkSymbols} {i j : ℕ}
    (same : sym.pageTableLookup i = sym.pageTableLookup j) : i = j := by
  unfold LinkSymbols.pageTableLookup at same
  omega

/-- `page_table_lookup` holds addresses where it held offsets; nothing else has changed. -/
structure Relocated (sym : LinkSymbols) (s t : InitState) : Prop where
  lookup : ∀ i < pageEntries, t.mem (sym.pageTableLookup i) =
    if s.mem (sym.pageTableLookup i) ≠ 0 then
      Word32.add (s.mem (sym.pageTableLookup i)) (Word32.sub s.nextVma pageSize) else 0
  others : ∀ a, (∀ i < pageEntries, a ≠ sym.pageTableLookup i) → t.mem a = s.mem a
  maps : t.maps = s.maps

/-- The loop changes the lookup entries that are not zero, and nothing else. -/
theorem absoluteEntry_upto (sym : LinkSymbols) (s : InitState) (n : ℕ) :
    (Loop.upto n (absoluteEntry sym) s).nextVma = s.nextVma ∧
      (Loop.upto n (absoluteEntry sym) s).maps = s.maps ∧
      (∀ i < n, (Loop.upto n (absoluteEntry sym) s).mem (sym.pageTableLookup i) =
        if s.mem (sym.pageTableLookup i) ≠ 0 then
          Word32.add (s.mem (sym.pageTableLookup i)) (Word32.sub s.nextVma pageSize) else 0) ∧
      ∀ a, (∀ i < n, a ≠ sym.pageTableLookup i) →
        (Loop.upto n (absoluteEntry sym) s).mem a = s.mem a := by
  induction n with
  | zero => exact ⟨rfl, rfl, fun i small => absurd small (Nat.not_lt_zero i), fun a _ => rfl⟩
  | succ n ih =>
      rw [Loop.upto_succ]
      obtain ⟨nextVma, maps, changed, others⟩ := ih
      generalize Loop.upto n (absoluteEntry sym) s = t at *
      have untouched := others (sym.pageTableLookup n) fun i small same =>
        small.ne (LinkSymbols.pageTableLookup_inj same).symm
      have mem : ∀ a, (absoluteEntry sym n t).mem a =
          if a = sym.pageTableLookup n ∧ s.mem a ≠ 0 then
            Word32.add (s.mem a) (Word32.sub s.nextVma pageSize) else t.mem a := fun a => by
        unfold absoluteEntry
        dsimp only
        rw [untouched, nextVma]
        by_cases here : a = sym.pageTableLookup n
        · subst here
          by_cases zero : s.mem (sym.pageTableLookup n) = 0
          · have none : ¬ s.mem (sym.pageTableLookup n) ≠ 0 := not_not.mpr zero
            rw [if_neg none, if_neg fun both => both.2 zero]
          · have some : s.mem (sym.pageTableLookup n) ≠ 0 := zero
            rw [if_pos some, if_pos ⟨rfl, zero⟩]
            exact Function.update_self _ _ _
        · have other : ¬ (a = sym.pageTableLookup n ∧ s.mem a ≠ 0) := fun both => here both.1
          rw [if_neg other]
          split_ifs
          · exact Function.update_of_ne here _ _
          · rfl
      refine ⟨?_, ?_, fun i small => ?_, fun a outside => ?_⟩
      · unfold absoluteEntry
        dsimp only
        split_ifs <;> exact nextVma
      · unfold absoluteEntry
        dsimp only
        split_ifs <;> exact maps
      · rw [mem]
        rcases Nat.lt_succ_iff_lt_or_eq.mp small with before | rfl
        · rw [if_neg fun both => before.ne (LinkSymbols.pageTableLookup_inj both.1)]
          exact changed i before
        · by_cases zero : s.mem (sym.pageTableLookup i) = 0
          · rw [if_neg fun both => both.2 zero, if_neg (not_not.mpr zero), untouched, zero]
          · rw [if_pos ⟨rfl, zero⟩, if_pos zero]
      · rw [mem, if_neg fun both => outside n n.lt_succ_self both.1]
        exact others a fun i small => outside i (Nat.lt_succ_of_lt small)

theorem absoluteEntry_upto_nextPma (sym : LinkSymbols) (s : InitState) (n : ℕ) :
    (Loop.upto n (absoluteEntry sym) s).nextPma = s.nextPma := by
  refine Loop.upto_invariant (motive := fun _ (t : InitState) => t.nextPma = s.nextPma) n rfl ?_
  intro k _ t same
  unfold absoluteEntry
  dsimp only
  split_ifs <;> exact same

/-- The last loop of `init_map_kernel`. -/
theorem relocated_runs (sym : LinkSymbols) (s : InitState) :
    ∃ t, (Prog.update fun s => Loop.upto pageEntries (absoluteEntry sym) s : InitM Unit) s =
        .ok ((), t) ∧ t.nextVma = s.nextVma ∧ t.nextPma = s.nextPma ∧ Relocated sym s t := by
  obtain ⟨nextVma, maps, changed, others⟩ := absoluteEntry_upto sym s pageEntries
  exact ⟨_, Prog.update_run _ s, nextVma, absoluteEntry_upto_nextPma sym s pageEntries, changed,
    others, maps⟩

/-! ## The loops of `init_map_kernel` -/

section Loops

variable {sym : LinkSymbols} (linked : sym.Linked) {s : InitState} {fuel : ℕ}
  (enough : pageEntries * pageEntries < fuel)

/-- The 4 MiB regions the ranges before the page tables touch. -/
abbrev LinkSymbols.fixedRegions (sym : LinkSymbols) : Finset ℕ :=
  Segment.regions (pageEntries * pageSize) sym.fixedSegments

include linked enough

theorem InitState.Loaded.initSection (loaded : s.Loaded sym) :
    ∃ t, forPages sym.initBssEnd (fun i => initPageMap sym i i (pageWrite ||| pagePresent)) fuel
        sym.initStart { s with nextPma := sym.kernelEndPma } = .ok (sym.initBssEnd, t) ∧
      Mapped sym sym.fixedRegions (sym.fixedSegments.take 1) t := by
  have startStruct := linked.startStruct
  have structBss := linked.structBss
  have bssKernel := linked.bssKernel
  have pos : 0 < pageSize := by decide
  have placed : Placed _ [] ⟨sym.initStart, sym.initBssEnd - sym.initStart, sym.initStart,
    pageWrite ||| pagePresent⟩ := linked.placedFixed rfl
  have range : sym.initStart + (sym.initBssEnd - sym.initStart) = sym.initBssEnd := by
    unfold LinkSymbols.stackPage at structBss
    omega
  unfold kernelStartVma at bssKernel
  obtain ⟨t, run, mapped, -⟩ := (loaded.mapped linked).segment
    (fun i => initPageMap sym i i (pageWrite ||| pagePresent)) linked.tablesBehind
    linked.fixedRoom placed range.ge (by dsimp only; omega) (by dsimp only; omega) enough
    fun a _ t _ => rfl
  rw [range] at run
  exact ⟨t, run, mapped⟩

/-- `.text` and `.rodata`. -/
theorem Mapped.text (mapped : Mapped sym sym.fixedRegions (sym.fixedSegments.take 1) s) :
    ∃ t, forPages (Word32.sub sym.rodataEnd sym.textStart)
        (fun i => initPageMap sym (Word32.add sym.textStart i) (Word32.add sym.initBssEnd i)
          (pagePublic ||| pagePresent)) fuel 0 s = .ok (sym.rodataEnd - sym.textStart, t) ∧
      Mapped sym sym.fixedRegions (sym.fixedSegments.take 2) t := by
  have placed : Placed _ (sym.fixedSegments.take 1) ⟨sym.textStart, sym.rodataEnd - sym.textStart,
    sym.initBssEnd, pagePublic ||| pagePresent⟩ := linked.placedFixed rfl
  have word := linked.bssEnd_lt
  have frames := placed.frames
  have textRodata := linked.textRodata
  have rodataBss := linked.rodataBss
  dsimp only at frames
  have range : 0 + (sym.rodataEnd - sym.textStart) = sym.rodataEnd - sym.textStart :=
    Nat.zero_add _
  obtain ⟨t, run, mapped', -⟩ := mapped.segment
    (fun i => initPageMap sym (Word32.add sym.textStart i) (Word32.add sym.initBssEnd i)
      (pagePublic ||| pagePresent)) linked.tablesBehind linked.fixedRoom placed range.ge
    (range.trans_lt (Nat.lt_add_of_pos_right (by decide))) (by dsimp only; omega) enough
    fun a inside t _ => by
      dsimp only at inside ⊢
      rw [Nat.zero_add, Word32.add_eq (by omega), Word32.add_eq (by omega)]
  rw [range] at run
  rw [Word32.sub_eq textRodata (by omega)]
  exact ⟨t, run, mapped'⟩

/-- `.data` and `.bss`. -/
theorem Mapped.data (mapped : Mapped sym sym.fixedRegions (sym.fixedSegments.take 2) s) :
    ∃ t, forPages (Word32.sub sym.bssEnd sym.textStart)
        (fun i => initPageMap sym (Word32.add sym.textStart i) (Word32.add sym.initBssEnd i)
          (pagePublic ||| pageWrite ||| pagePresent)) fuel (sym.rodataEnd - sym.textStart) s =
          .ok (sym.bssEnd - sym.textStart, t) ∧
      Mapped sym sym.fixedRegions (sym.fixedSegments.take 3) t := by
  have placed : Placed _ (sym.fixedSegments.take 2) ⟨sym.rodataEnd, sym.bssEnd - sym.rodataEnd,
    sym.initBssEnd + (sym.rodataEnd - sym.textStart), pagePublic ||| pageWrite ||| pagePresent⟩ :=
    linked.placedFixed rfl
  have word := linked.bssEnd_lt
  have frames := placed.frames
  have textRodata := linked.textRodata
  have rodataBss := linked.rodataBss
  dsimp only at frames
  have range : sym.rodataEnd - sym.textStart + (sym.bssEnd - sym.rodataEnd) =
      sym.bssEnd - sym.textStart := by omega
  obtain ⟨t, run, mapped', -⟩ := mapped.segment
    (fun i => initPageMap sym (Word32.add sym.textStart i) (Word32.add sym.initBssEnd i)
      (pagePublic ||| pageWrite ||| pagePresent)) linked.tablesBehind linked.fixedRoom placed
    range.ge (range.trans_lt (Nat.lt_add_of_pos_right (by decide))) (by dsimp only; omega) enough
    fun a inside t _ => by
      dsimp only at inside ⊢
      have vma : sym.textStart + (sym.rodataEnd - sym.textStart + a) = sym.rodataEnd + a := by omega
      rw [Word32.add_eq (by omega), Word32.add_eq (by omega), vma, Nat.add_assoc]
  rw [range] at run
  rw [Word32.sub_eq (textRodata.trans rodataBss) (by omega)]
  exact ⟨t, run, mapped'⟩

/-- The VGA buffer, which is smaller than a page. -/
theorem Mapped.vga (mapped : Mapped sym sym.fixedRegions (sym.fixedSegments.take 6) s)
    (nextVma : s.nextVma = sym.bssEnd + 2 * pageSize) :
    ∃ t, forPages (vgaWidthDefault * vgaHeightDefault * vgaEntrySize)
        (fun i => do
          let vma ← Prog.read fun s => s.nextVma
          initPageMap sym (Word32.add vma i) (Word32.add vgaPaddrBuffer i)
            (pagePublic ||| pageWrite ||| pagePresent)) fuel 0 s = .ok (pageSize, t) ∧
      Mapped sym sym.fixedRegions sym.fixedSegments t ∧ t.nextVma = s.nextVma := by
  have placed : Placed _ (sym.fixedSegments.take 6) ⟨sym.bssEnd + 2 * pageSize, pageSize,
    vgaPaddrBuffer, pagePublic ||| pageWrite ||| pagePresent⟩ := linked.placedFixed rfl
  have bound := linked.bssEnd_bound
  have range : 0 + pageSize = pageSize := Nat.zero_add _
  obtain ⟨t, run, mapped', same⟩ := mapped.segment (fun i => do
      let vma ← Prog.read fun s => s.nextVma
      initPageMap sym (Word32.add vma i) (Word32.add vgaPaddrBuffer i)
        (pagePublic ||| pageWrite ||| pagePresent)) linked.tablesBehind linked.fixedRoom placed
    (show vgaWidthDefault * vgaHeightDefault * vgaEntrySize ≤ 0 + pageSize by decide)
    (show 0 + pageSize < vgaWidthDefault * vgaHeightDefault * vgaEntrySize + pageSize by decide)
    (show 0 + pageSize < 2 ^ 32 by decide) enough fun a inside t there => by
      dsimp only at inside ⊢
      rw [Prog.bind_of_ok (Prog.read_run _ t), there, nextVma, Nat.zero_add,
        Word32.add_eq (by unfold pageSize at *; omega),
        Word32.add_eq (by unfold vgaPaddrBuffer pageSize at *; omega)]
  rw [range] at run
  exact ⟨t, run, mapped', same⟩

/-- The page tables. -/
theorem Mapped.pageTables (mapped : Mapped sym sym.fixedRegions sym.fixedSegments s)
    (nextVma : s.nextVma = sym.bssEnd + 3 * pageSize) :
    ∃ t, forPages sym.tablesSize
        (fun i => do
          let vma ← Prog.read fun s => s.nextVma
          initPageMap sym (Word32.add vma i) (Word32.add sym.kernelEndPma i)
            (pageWrite ||| pagePresent)) fuel 0 s = .ok (sym.tablesSize, t) ∧
      Mapped sym sym.allRegions sym.segments t ∧ t.nextVma = s.nextVma := by
  have regions : ∀ v, sym.tablesSegment.Contains v →
      v / (pageEntries * pageSize) ∈ sym.allRegions := fun v inside =>
    (Segment.mem_regions (by decide)).mpr ⟨sym.tablesSegment,
      List.mem_append_right _ List.mem_cons_self, v, inside, rfl⟩
  have placed : Placed _ sym.fixedSegments sym.tablesSegment := linked.placed rfl regions
  have bound := linked.bssEnd_bound
  have frames := placed.frames
  unfold LinkSymbols.tablesSegment at frames
  dsimp only at frames
  have range : 0 + sym.tablesSize = sym.tablesSize := Nat.zero_add _
  obtain ⟨t, run, mapped', same⟩ := (mapped.mono sym.fixedRegions_subset).segment (fun i => do
      let vma ← Prog.read fun s => s.nextVma
      initPageMap sym (Word32.add vma i) (Word32.add sym.kernelEndPma i)
        (pageWrite ||| pagePresent)) linked.tablesBehind linked.allRoom placed range.ge
    (range.trans_lt (Nat.lt_add_of_pos_right (by decide)))
    (range.trans_lt (by unfold pageSize at bound; omega)) enough fun a inside t there => by
      change a < sym.tablesSize at inside
      change _ = initPageMap sym (sym.bssEnd + 3 * pageSize + a) (sym.kernelEndPma + a) _ t
      rw [Prog.bind_of_ok (Prog.read_run _ t), there, nextVma, Nat.zero_add,
        Word32.add_eq (by omega), Word32.add_eq (by omega)]
      rfl
  change forPages _ _ _ _ _ = .ok (0 + sym.tablesSize, t) at run
  rw [range] at run
  exact ⟨t, run, mapped', same⟩

omit enough in
/-- The size of the tables, as the code computes it. -/
theorem Mapped.tablesSize_eq (mapped : Mapped sym sym.fixedRegions sym.fixedSegments s) :
    Word32.add (Word32.sub s.nextPma sym.kernelEndPma)
      (Word32.mul (newTables sym.kernelEndPma s.nextPma) pageSize) = sym.tablesSize := by
  obtain ⟨dirs, built, -, count⟩ := mapped.tables
  have nextPma := built.nextPma
  rw [count] at nextPma
  change s.nextPma = sym.tableAt sym.tableCount % 2 ^ 32 at nextPma
  have room := linked.fixedRoom
  have word := linked.kernelEndPma_lt
  have bound := linked.bssEnd_bound
  have size : sym.tablesSize = sym.tableCount * pageSize +
      newTables sym.kernelEndPma s.nextPma * pageSize := by
    rw [nextPma, LinkSymbols.tablesSize, Nat.add_mul]
  have small : sym.tablesSize < 2 ^ 32 := by
    unfold pageSize at bound
    omega
  rw [size] at small
  have alloc : Word32.sub s.nextPma sym.kernelEndPma = sym.tableCount * pageSize := by
    rw [nextPma]
    unfold LinkSymbols.tableAt at *
    unfold Word32.sub
    omega
  rw [alloc, Word32.mul_eq (by omega), Word32.add_eq small, size]

/-- **`init_map_kernel` returns**, and up to the lookup table, which then holds addresses
instead of offsets, it leaves the segments mapped. -/
theorem InitState.Loaded.runs (loaded : s.Loaded sym) :
    ∃ t u, initMapKernel sym fuel s = .ok ((), u) ∧
      Mapped sym sym.allRegions sym.segments t ∧ t.nextVma = sym.bssEnd + 3 * pageSize ∧
      Relocated sym t u ∧ u.nextVma = sym.heapStart ∧ u.nextPma = t.nextPma := by
  have behind := linked.tablesBehind
  have room := linked.fixedRoom
  have bound := linked.bssEnd_bound
  have dir : Placed _ (sym.fixedSegments.take 3) ⟨sym.bssEnd, pageSize, sym.pageDir 0,
    pageWrite ||| pagePresent⟩ := linked.placedFixed rfl
  have lookup : Placed _ (sym.fixedSegments.take 4) ⟨sym.bssEnd + pageSize, pageSize,
    sym.pageTableLookup 0, pageWrite ||| pagePresent⟩ := linked.placedFixed rfl
  have stack : Placed _ (sym.fixedSegments.take 5) ⟨2 ^ 32 - pageSize, pageSize, sym.stackPage,
    pageWrite ||| pagePresent⟩ := linked.placedFixed rfl
  obtain ⟨t₁, run₁, mapped₁⟩ := loaded.initSection linked enough
  obtain ⟨t₂, run₂, mapped₂⟩ := mapped₁.text linked enough
  obtain ⟨t₃, run₃, mapped₃⟩ := mapped₂.data linked enough
  have atDir : Mapped sym _ _ { t₃ with nextVma := sym.bssEnd } := mapped₃.congr rfl rfl rfl rfl
  obtain ⟨t₄, run₄, mapped₄, nextVma₄⟩ := atDir.page behind room dir rfl
  have next₄ : Word32.add sym.bssEnd pageSize = sym.bssEnd + pageSize :=
    Word32.add_eq (by unfold pageSize at *; omega)
  have atLookup : Mapped sym _ _ { t₄ with nextVma := sym.bssEnd + pageSize } :=
    mapped₄.congr rfl rfl rfl rfl
  obtain ⟨t₅, run₅, mapped₅, nextVma₅⟩ := atLookup.page behind room lookup rfl
  have next₅ : Word32.add (sym.bssEnd + pageSize) pageSize = sym.bssEnd + 2 * pageSize := by
    rw [Word32.add_eq (by unfold pageSize at *; omega), Nat.add_assoc, ← Nat.two_mul]
  have atStack : Mapped sym _ _ { t₅ with nextVma := sym.bssEnd + 2 * pageSize } :=
    mapped₅.congr rfl rfl rfl rfl
  obtain ⟨t₆, run₆, mapped₆, nextVma₆⟩ := atStack.page behind room stack rfl
  have atVga : Mapped sym _ _ { t₆ with vgaBufferVma := t₆.nextVma } :=
    mapped₆.congr rfl rfl rfl rfl
  obtain ⟨t₇, run₇, mapped₇, nextVma₇⟩ := atVga.vga linked enough nextVma₆
  have next₇ : Word32.add t₇.nextVma pageSize = sym.bssEnd + 3 * pageSize := by
    rw [nextVma₇]
    change Word32.add t₆.nextVma pageSize = _
    rw [nextVma₆]
    change Word32.add (sym.bssEnd + 2 * pageSize) pageSize = _
    rw [Word32.add_eq (by unfold pageSize at *; omega), Nat.add_assoc, ← Nat.succ_mul]
  have atTables : Mapped sym sym.fixedRegions sym.fixedSegments
      { t₇ with nextVma := sym.bssEnd + 3 * pageSize } := mapped₇.congr rfl rfl rfl rfl
  have tablesSize := atTables.tablesSize_eq linked
  have top : Word32.sub 0 pageSize = 2 ^ 32 - pageSize := by
    rw [Word32.sub_eq_of_lt (by decide) (by decide), Nat.add_zero]
  obtain ⟨t, run, mapped, nextVma⟩ := atTables.pageTables linked enough rfl
  obtain ⟨u, absolute, kept, keptPma, relocated⟩ := relocated_runs sym t
  refine ⟨t, { u with nextVma := sym.heapStart }, ?_, mapped, nextVma,
    ⟨relocated.lookup, relocated.others, relocated.maps⟩, rfl, keptPma⟩
  have heapStart : Word32.add t.nextVma sym.tablesSize = sym.heapStart := by
    have word : sym.bssEnd + 3 * pageSize + sym.tablesSize < 2 ^ 32 := by
      unfold pageSize at bound ⊢
      omega
    rw [nextVma]
    exact Word32.add_eq word
  unfold initMapKernel
  refine (Prog.bind_of_ok rfl).trans ?_
  refine (Prog.bind_of_ok run₁).trans ((Prog.bind_of_ok run₂).trans ?_)
  refine (Prog.bind_of_ok run₃).trans ((Prog.bind_of_ok rfl).trans ?_)
  refine (Prog.bind_of_ok rfl).trans ((Prog.bind_of_ok run₄).trans ?_)
  refine (Prog.bind_of_ok rfl).trans ((Prog.bind_of_ok rfl).trans ?_)
  dsimp only
  rw [next₄]
  refine (Prog.bind_of_ok run₅).trans ((Prog.bind_of_ok rfl).trans ?_)
  dsimp only
  rw [next₅]
  rw [top]
  refine (Prog.bind_of_ok run₆).trans ((Prog.bind_of_ok rfl).trans ?_)
  refine (Prog.bind_of_ok run₇).trans ((Prog.bind_of_ok rfl).trans ?_)
  refine (Prog.bind_of_ok rfl).trans ?_
  dsimp only at tablesSize ⊢
  rw [next₇, tablesSize]
  refine (Prog.bind_of_ok run).trans ((Prog.bind_of_ok absolute).trans ?_)
  rw [Prog.update_run, kept, heapStart]

end Loops

/-! ## What the processor finds -/

section Absolute

variable {sym : LinkSymbols} {s : InitState} {dirs : List ℕ} {map : ℕ → Option (ℕ × ℕ)}

/-- The processor reads the directory and the tables only. -/
theorem Built.walk_congr (built : Built sym dirs map s) (behind : sym.TablesBehind)
    {mem : ℕ → ℕ} {v : ℕ} (word : v < 2 ^ 32)
    (dir : ∀ idx < pageEntries, mem (sym.pageDir idx) = s.mem (sym.pageDir idx))
    (tables : ∀ a, sym.kernelEndPma ≤ a → mem a = s.mem a) :
    walk mem sym.initPageStruct v = walk s.mem sym.initPageStruct v := by
  have bound : v >>> 22 < pageEntries := by
    rw [Nat.shiftRight_eq_div_pow]
    unfold pageEntries
    omega
  have entry : mem (sym.initPageStruct + 4 * (v >>> 22)) =
      s.mem (sym.initPageStruct + 4 * (v >>> 22)) := dir _ bound
  unfold walk
  dsimp only
  rw [entry]
  by_cases known : v >>> 22 ∈ dirs
  · obtain ⟨k, found⟩ := List.mem_iff_getElem?.mp known
    have table : s.mem (sym.initPageStruct + 4 * (v >>> 22)) = sym.tableAt k ||| tableFlags :=
      built.dir k _ found
    rw [table, (built.dirEntry behind found).frame_eq, tables]
    exact (Nat.le_add_right _ _).trans (Nat.le_add_right _ _)
  · have none : s.mem (sym.initPageStruct + 4 * (v >>> 22)) = 0 := built.noDir _ bound known
    rw [none]
    rfl

/-- The addresses in the lookup table do not change what is mapped. -/
theorem Built.walk_relocated {t : InitState} {v : ℕ} (built : Built sym dirs map s)
    (behind : sym.TablesBehind) (relocated : Relocated sym s t) (word : v < 2 ^ 32) :
    walk t.mem sym.initPageStruct v = walk s.mem sym.initPageStruct v := by
  have above := behind.behind
  refine built.walk_congr behind word (fun idx bound => relocated.others _ fun i small => ?_)
    fun a le => relocated.others a fun i small => ?_
  · unfold LinkSymbols.pageDir LinkSymbols.pageTableLookup pageEntries pageSize at *
    omega
  · unfold LinkSymbols.pageTableLookup pageEntries pageSize at *
    omega

end Absolute

/-! ## The address space -/

section Space

variable {sym : LinkSymbols} {s : InitState} {fuel : ℕ}

/-- The map of whole pages, address by address. -/
theorem Built.walk_segments {dirs : List ℕ} {segs : List (Segment ℕ)} {v : ℕ}
    (built : Built sym dirs (pageMap segs) s) (behind : sym.TablesBehind)
    (whole : ∀ seg ∈ segs, WholePages seg) (word : v < 2 ^ 32) :
    walk s.mem sym.initPageStruct v = Segment.translate segs v := by
  have blocks : ∀ seg ∈ segs, pageSize ∣ seg.start ∧ pageSize ∣ seg.size := fun seg member =>
    ⟨Nat.dvd_of_mod_eq_zero (whole seg member).start,
      Nat.dvd_of_mod_eq_zero (whole seg member).size⟩
  rw [built.walk_eq behind word, Segment.translate_block (by decide) blocks]
  rfl

/-- **The boot address space.** With the directory that `init_map_kernel` builds, every address is
translated as the segments say, where no two of them meet, and the addresses outside are not
present.  No call of `init_page_map` changes what an earlier one mapped.  The segments are the
ranges the source maps one after the other: the init section, the sections of the kernel, the
directory, the lookup table, the stack, the VGA buffer and the page tables.  `Linked` is what the
linker script says of the symbols, and `enough` bounds the turns of the loops. -/
theorem bootSpace_exact (linked : sym.Linked) (loaded : s.Loaded sym)
    (enough : pageEntries * pageEntries < fuel) :
    ∃ t, initMapKernel sym fuel s = .ok ((), t) ∧
      (∀ v < 2 ^ 32, walk t.mem sym.initPageStruct v = Segment.translate sym.segments v) ∧
      sym.segments.Pairwise Segment.Apart ∧
      (t.mem :: t.maps).Pairwise fun later earlier =>
        KeepsMapped sym.initPageStruct earlier later := by
  have behind := linked.tablesBehind
  obtain ⟨t, u, run, mapped, -, relocated, -⟩ := loaded.runs linked enough
  obtain ⟨dirs, built, -⟩ := mapped.built
  refine ⟨u, run, fun v word => ?_, linked.apart, ?_⟩
  · rw [built.walk_relocated behind relocated word]
    exact built.walk_segments behind linked.wholePages word
  · rw [relocated.maps]
    refine List.pairwise_cons.mpr ⟨fun mem member v word x found => ?_, mapped.kept⟩
    rw [built.walk_relocated behind relocated word]
    exact mapped.last mem member v word x found

end Space

/-- A kernel of 64 KiB. -/
def smallLink : LinkSymbols :=
  ⟨0x100000, 0x101000, 0x105000, 0xE0000000, 0xE0000000, 0xE0008000, 0xE0010000, 0xE0010000⟩

/-- Memory when nothing has run. -/
def freshInit : InitState := ⟨fun _ => 0, 0, 0, 0, pageSize, []⟩

theorem freshInit_loaded (sym : LinkSymbols) : freshInit.Loaded sym :=
  ⟨fun _ _ => rfl, fun _ _ => rfl, rfl, rfl⟩

theorem smallLink_linked : smallLink.Linked := by
  constructor <;> decide +kernel

/-- The address space of that kernel. -/
theorem bootSpace_exact_small :
    ∃ t, initMapKernel smallLink (2 ^ 21) freshInit = .ok ((), t) ∧
      (∀ v < 2 ^ 32, walk t.mem smallLink.initPageStruct v =
        Segment.translate smallLink.segments v) ∧
      smallLink.segments.Pairwise Segment.Apart ∧
      (t.mem :: t.maps).Pairwise fun later earlier =>
        KeepsMapped smallLink.initPageStruct earlier later :=
  bootSpace_exact smallLink_linked (freshInit_loaded smallLink) (by decide)

end TrashOS
