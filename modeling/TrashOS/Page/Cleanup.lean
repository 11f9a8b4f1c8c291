import TrashOS.Page.Trace

/-!
# `page_init_cleanup`

The last function of `page.c` to run at boot: it starts the kernel heap, frees the
pages of the init section, and gives every directory entry of the kernel region a
page table.  The new tables come from `kalloc` and are not cleared, so a table
starts with what the page behind it holds; that is the parameter `contents`, by
directory index and word.

`freshTables_iff` says what follows: an entry of a new table is what the page held
until the code writes it.
-/

namespace TrashOS

/-! ## The code -/

/-- What the linker script and `init.c` pass on. -/
structure InitRegion where
  /-- `INIT_START` -/
  initStart : ℕ
  /-- `&init_page_struct` -/
  initPageStruct : ℕ
  /-- `INIT_BSS_END` -/
  initBssEnd : ℕ
  /-- `kernel_heap_end_vma` -/
  heapEndVma : ℕ

/-- `sizeof(init_page_struct_t)` in pages -/
def initPageStructPages : ℕ := 3

/-- The first `n` turns of the loop of `page_clear`, each a 64-bit store. -/
def pageClearWords (vma : ℕ) : ℕ → KM PageTables Unit
  | 0 => pure ()
  | n + 1 => do
      pageClearWords vma n
      store (Word32.add vma (8 * n)) 0
      store (Word32.add vma (8 * n + 4)) 0

/-- `page_clear` -/
def pageClear (vma : ℕ) : KM PageTables Unit := pageClearWords vma (pageSize / 8)

/-- `for ( ; i < bound; i += PAGE_SIZE) { page_clear(i); page_free(i); }` -/
def clearAndFree (depth bound : ℕ) : ℕ → ℕ → KM PageTables ℕ
  | 0, _ => Prog.stop .fuel
  | fuel + 1, i =>
      if i < bound then do
        pageClear i
        pageFree depth i
        clearAndFree depth bound fuel (Word32.add i pageSize)
      else
        pure i

/-- `for (j = 0; j < n pages; j += PAGE_SIZE) { page_unmap(i); i += PAGE_SIZE; }` -/
def unmapPages : ℕ → ℕ → KM PageTables ℕ
  | 0, i => pure i
  | n + 1, i => do
      onPages (pageUnmap i)
      unmapPages n (Word32.add i pageSize)

/-- `page_init_cleanup` up to the kernel page tables. -/
def freeInitPages (depth : ℕ) (region : InitRegion) : KM PageTables Unit := do
  initHeap (pageNew depth) region.heapEndVma
  let i ← clearAndFree depth region.initPageStruct pageFuel region.initStart
  let i ← unmapPages initPageStructPages i
  let _ ← clearAndFree depth region.initBssEnd pageFuel i
  pure ()

/-- `page_table_lookup[i] = table;`, where the words of the table are `words`. -/
def setTable (i : ℕ) (words : ℕ → ℕ) : PageM Unit :=
  Prog.update fun pt => { pt with table := Function.update pt.table i (some words) }

/-- `page_dir[i] = entry;` -/
def setDir (i entry : ℕ) : PageM Unit :=
  Prog.update fun pt => { pt with dir := Function.update pt.dir i entry }

/-- One turn of the loop over the kernel page tables. -/
def allocTable (depth : ℕ) (contents : ℕ → ℕ → ℕ) (i : ℕ) : KM PageTables Unit := do
  let entry ← Prog.read fun s => s.pages.dir i
  if entryPresent entry = false then do
    let table ← kalloc depth pageSize pageSize
    onPages (setTable i (contents i))
    let pma ← onPages (pageGetPma table)
    onPages (setDir i (pma ||| pagePresent ||| pageWrite))
  else
    pure ()

/-- The first `n` turns of the loop. -/
def allocTables (depth : ℕ) (contents : ℕ → ℕ → ℕ) : ℕ → KM PageTables Unit
  | 0 => pure ()
  | n + 1 => do
      allocTables depth contents n
      allocTable depth contents (pageGetDirIdx kernelStartVma + n)

/-- The number of directory entries of the kernel region. -/
def kernelTables : ℕ := pageEntries - pageGetDirIdx kernelStartVma

/-- `page_init_cleanup` -/
def pageInitCleanup (depth : ℕ) (contents : ℕ → ℕ → ℕ) (region : InitRegion) :
    KM PageTables Unit := do
  freeInitPages depth region
  allocTables depth contents kernelTables

/-! ## Entries after a list of events -/

/-- What a list of events makes of the entry of a page. -/
def entryAfter (page old : ℕ) (events : List TableEvent) : ℕ :=
  events.foldl (fun entry e =>
    match e with
    | .write vma new => if vma / pageSize = page then new else entry
    | .invlpg _ => entry) old

theorem entryOf_replay (pt : PageTables) (events : List TableEvent) (v : ℕ) :
    (replay pt events).entryOf v
      = (pt.entryOf v).map fun old => entryAfter (v / pageSize) old events := by
  induction events generalizing pt with
  | nil => simp [replay, entryAfter]
  | cons e events ih =>
      refine (ih (e.apply pt)).trans ?_
      cases e with
      | invlpg vma => rfl
      | write vma entry =>
          change ((pt.write vma entry).entryOf v).map _ = _
          by_cases same : v / pageSize = vma / pageSize
          · rw [PageTables.entryOf_write_same same, PageTables.entryOf_congr same, Option.map_map]
            simp [entryAfter, same, Function.comp_def]
          · rw [PageTables.entryOf_write_other same]
            simp [entryAfter, Ne.symm same]

/-- A list of events writes the entry of a page. -/
def Writes (events : List TableEvent) (page : ℕ) : Prop :=
  ∃ vma entry, TableEvent.write vma entry ∈ events ∧ vma / pageSize = page

/-- A list of events maps a page. -/
def Maps (events : List TableEvent) (page : ℕ) : Prop :=
  ∃ vma entry, TableEvent.write vma entry ∈ events ∧ vma / pageSize = page ∧
    entryPresent entry = true

theorem Maps.writes {events : List TableEvent} {page : ℕ} (maps : Maps events page) :
    Writes events page := by
  obtain ⟨vma, entry, member, same, -⟩ := maps
  exact ⟨vma, entry, member, same⟩

/-- An entry nobody wrote is the old one. -/
theorem entryAfter_of_not_writes {page old : ℕ} {events : List TableEvent}
    (untouched : ¬ Writes events page) : entryAfter page old events = old := by
  induction events generalizing old with
  | nil => rfl
  | cons e events ih =>
      have rest : ¬ Writes events page := fun ⟨vma, entry, member, same⟩ =>
        untouched ⟨vma, entry, List.mem_cons_of_mem _ member, same⟩
      cases e with
      | invlpg vma => exact ih rest
      | write vma entry =>
          have other : vma / pageSize ≠ page := fun same =>
            untouched ⟨vma, entry, List.mem_cons_self, same⟩
          change entryAfter page (if vma / pageSize = page then entry else old) events = old
          rw [if_neg other]
          exact ih rest

/-- A present entry was mapped, or it was present before and nobody wrote it. -/
theorem maps_or_of_present {page old : ℕ} {events : List TableEvent}
    (present : entryPresent (entryAfter page old events) = true) :
    Maps events page ∨ (entryPresent old = true ∧ ¬ Writes events page) := by
  induction events generalizing old with
  | nil => exact Or.inr ⟨present, fun ⟨_, _, member, _⟩ => List.not_mem_nil member⟩
  | cons e events ih =>
      have later : Maps events page → Maps (e :: events) page :=
        fun ⟨vma, entry, member, same, mapped⟩ =>
          ⟨vma, entry, List.mem_cons_of_mem _ member, same, mapped⟩
      cases e with
      | invlpg vma =>
          refine (ih present).imp later fun ⟨before, untouched⟩ => ⟨before, ?_⟩
          rintro ⟨v, entry, member, same⟩
          exact untouched ⟨v, entry, by simpa using member, same⟩
      | write vma entry =>
          change entryPresent (entryAfter page (if vma / pageSize = page then entry else old)
            events) = true at present
          rcases ih present with maps | ⟨before, untouched⟩
          · exact Or.inl (later maps)
          · by_cases here : vma / pageSize = page
            · rw [if_pos here] at before
              exact Or.inl ⟨vma, entry, List.mem_cons_self, here, before⟩
            · rw [if_neg here] at before
              refine Or.inr ⟨before, ?_⟩
              rintro ⟨v, new, member, same⟩
              rcases List.mem_cons.mp member with first | member
              · cases first
                exact here same
              · exact untouched ⟨v, new, member, same⟩

/-! ## The tables of one directory index -/

/-- Between `pt` and `pt'` the table at directory index `idx` stays in place, and
its entries change by the writes of the trace. -/
def Carried (idx : ℕ) (pt pt' : PageTables) : Prop :=
  ∃ events, pt'.trace = events.reverse ++ pt.trace ∧ pt'.dir idx = pt.dir idx ∧
    ∀ v, pageGetDirIdx v = idx →
      pt'.entryOf v = (pt.entryOf v).map fun old => entryAfter (v / pageSize) old events

namespace Carried

variable {idx i : ℕ} {pt pt' pt'' : PageTables}

theorem refl (idx : ℕ) (pt : PageTables) : Carried idx pt pt :=
  ⟨[], rfl, rfl, fun v _ => by simp [entryAfter]⟩

theorem trans (first : Carried idx pt pt') (second : Carried idx pt' pt'') :
    Carried idx pt pt'' := by
  obtain ⟨es, trace, dir, entries⟩ := first
  obtain ⟨es', trace', dir', entries'⟩ := second
  refine ⟨es ++ es', ?_, dir'.trans dir, fun v here => ?_⟩
  · rw [trace', trace, List.reverse_append, List.append_assoc]
  · rw [entries' v here, entries v here, Option.map_map]
    unfold entryAfter
    simp only [List.foldl_append]
    rfl

/-- Code that writes what it records carries every table along. -/
theorem of_traced (traced : TracedTables pt pt') (idx : ℕ) : Carried idx pt pt' := by
  obtain ⟨events, trace, table, dir⟩ := traced
  refine ⟨events, trace, congrFun dir idx, fun v _ => ?_⟩
  rw [← entryOf_replay]
  unfold PageTables.entryOf
  rw [table]

/-- So does the installation of another table. -/
theorem of_install (words : ℕ → ℕ) (entry : ℕ) (other : idx ≠ i) :
    Carried idx pt { pt with
      table := Function.update pt.table i (some words)
      dir := Function.update pt.dir i entry } := by
  refine ⟨[], rfl, Function.update_of_ne other _ _, fun v here => ?_⟩
  unfold PageTables.entryOf
  subst here
  simp only [Function.update_of_ne other]
  cases pt.table (pageGetDirIdx v) with
  | none => rfl
  | some t => rfl

end Carried

/-! ## One turn -/

/-- What one turn does. -/
inductive Turn (contents : ℕ → ℕ → ℕ) (i : ℕ) (pt : PageTables) : PageTables → Prop
  | present (there : entryPresent (pt.dir i) = true) : Turn contents i pt pt
  | absent {pt₁ : PageTables} {pma : ℕ} (missing : entryPresent (pt.dir i) = false)
      (traced : TracedTables pt pt₁) :
      Turn contents i pt { pt₁ with
        table := Function.update pt₁.table i (some (contents i))
        dir := Function.update pt₁.dir i (pma ||| pagePresent ||| pageWrite) }

section Turns

variable {depth : ℕ} {contents : ℕ → ℕ → ℕ} {i idx : ℕ} {s s' : Sys PageTables}
  {pt pt' : PageTables}

theorem allocTable_returned (returned : allocTable depth contents i s = .ok ((), s')) :
    Turn contents i s.pages s'.pages := by
  unfold allocTable at returned
  obtain ⟨entry, s₁, read, returned⟩ := Prog.bind_eq_ok.mp returned
  cases read
  by_cases missing : entryPresent (s.pages.dir i) = false
  · rw [if_pos missing] at returned
    obtain ⟨table, s₁, request, returned⟩ := Prog.bind_eq_ok.mp returned
    obtain ⟨u, s₂, lookup, returned⟩ := Prog.bind_eq_ok.mp returned
    obtain ⟨pma, s₃, frame, final⟩ := Prog.bind_eq_ok.mp returned
    cases lookup
    obtain ⟨pages, read, rfl⟩ := onPages_eq_ok.mp frame
    obtain ⟨entry, -, -, rfl⟩ := pageGetPma_eq_ok.mp read
    cases final
    exact .absent missing (Traced.alloc (Traced.pageLayer depth).1 _ _ _ _ _ request)
  · rw [if_neg missing] at returned
    cases returned
    exact .present (by simpa using missing)

/-- A turn for another index carries the table along. -/
theorem Turn.carried (turn : Turn contents i pt pt') (other : idx ≠ i) : Carried idx pt pt' := by
  cases turn with
  | present there => exact .refl _ _
  | absent missing traced => exact (Carried.of_traced traced idx).trans (.of_install _ _ other)

/-- A turn that found no table leaves one that holds what the page held. -/
theorem Turn.installed (turn : Turn contents i pt pt') (missing : entryPresent (pt.dir i) = false)
    {v : ℕ} (here : pageGetDirIdx v = i) :
    pt'.entryOf v = some (contents i (pageGetTableIdx v)) := by
  cases turn with
  | present there =>
      rw [missing] at there
      cases there
  | absent _ traced =>
      unfold PageTables.entryOf
      simp [here]

/-- The first `n` turns leave the later indices alone. -/
theorem allocTables_carried {n : ℕ} (returned : allocTables depth contents n s = .ok ((), s'))
    (later : ∀ i < n, idx ≠ pageGetDirIdx kernelStartVma + i) : Carried idx s.pages s'.pages := by
  induction n generalizing s' with
  | zero =>
      cases returned
      exact .refl _ _
  | succ n ih =>
      obtain ⟨u, s₁, first, last⟩ := Prog.bind_eq_ok.mp returned
      exact (ih first fun i small => later i (Nat.lt_succ_of_lt small)).trans
        ((allocTable_returned last).carried (later n n.lt_succ_self))

/-- The turns after the first `m` carry the tables of the first `m` along. -/
theorem allocTables_prefix {m j : ℕ}
    (returned : allocTables depth contents (m + j) s = .ok ((), s')) :
    ∃ t, allocTables depth contents m s = .ok ((), t) ∧
      ∀ i < m, Carried (pageGetDirIdx kernelStartVma + i) t.pages s'.pages := by
  induction j generalizing s' with
  | zero => exact ⟨s', returned, fun i _ => .refl _ _⟩
  | succ j ih =>
      obtain ⟨u, s₁, first, last⟩ := Prog.bind_eq_ok.mp returned
      obtain ⟨t, run, carried⟩ := ih first
      exact ⟨t, run, fun i small => (carried i small).trans
        ((allocTable_returned last).carried
          (show pageGetDirIdx kernelStartVma + i ≠ pageGetDirIdx kernelStartVma + (m + j) by
            omega))⟩

/-- The table of a turn that found none: what the page held until the code writes
it, at any later turn. -/
theorem allocTables_entry {n i : ℕ} {t : Sys PageTables} (small : i < n)
    (missing : entryPresent (s.pages.dir (pageGetDirIdx kernelStartVma + i)) = false)
    (installed : allocTables depth contents (i + 1) s = .ok ((), t))
    (returned : allocTables depth contents n s = .ok ((), s')) :
    ∃ events, s'.pages.trace = events.reverse ++ t.pages.trace ∧
      ∀ v, pageGetDirIdx v = pageGetDirIdx kernelStartVma + i →
        s'.pages.entryOf v = some (entryAfter (v / pageSize)
          (contents (pageGetDirIdx kernelStartVma + i) (pageGetTableIdx v)) events) := by
  obtain ⟨j, rfl⟩ : ∃ j, n = i + 1 + j := ⟨n - (i + 1), by omega⟩
  obtain ⟨t', installed', carried⟩ := allocTables_prefix returned
  rw [installed] at installed'
  cases installed'
  obtain ⟨events, trace, -, entries⟩ := carried i i.lt_succ_self
  refine ⟨events, trace, fun v here => ?_⟩
  obtain ⟨u, t₁, before, turn⟩ := Prog.bind_eq_ok.mp installed
  have other : ∀ k < i, pageGetDirIdx kernelStartVma + i ≠ pageGetDirIdx kernelStartVma + k :=
    fun k small => by omega
  obtain ⟨-, -, dir, -⟩ := allocTables_carried before other
  rw [entries v here, (allocTable_returned turn).installed (by rw [dir]; exact missing) here]
  rfl

end Turns

/-! ## What a fresh table maps -/

/-- The `i`-th directory entry of the kernel region has no table. -/
def NewTable (s : Sys PageTables) (i : ℕ) : Prop :=
  entryPresent (s.pages.dir (pageGetDirIdx kernelStartVma + i)) = false

/-- The events between two states have a property. -/
def Since (P : List TableEvent → ℕ → Prop) (pt pt' : PageTables) (page : ℕ) : Prop :=
  ∃ events, pt'.trace = events.reverse ++ pt.trace ∧ P events page

/-- After `n` turns, a present entry of a table they installed is that of a page
the code has mapped since. -/
def MapsOnlyMapped (depth : ℕ) (contents : ℕ → ℕ → ℕ) (s : Sys PageTables) (n : ℕ) : Prop :=
  ∀ i < n, NewTable s i → ∀ t t', allocTables depth contents (i + 1) s = .ok ((), t) →
    allocTables depth contents n s = .ok ((), t') →
    ∀ v entry, pageGetDirIdx v = pageGetDirIdx kernelStartVma + i →
      t'.pages.entryOf v = some entry → entryPresent entry = true →
      Since Maps t.pages t'.pages (v / pageSize)

/-- After `n` turns, every word with a present bit that the page of a new table
held has been overwritten. -/
def DirtyWritten (depth : ℕ) (contents : ℕ → ℕ → ℕ) (s : Sys PageTables) (n : ℕ) : Prop :=
  ∀ i < n, NewTable s i → ∀ t t', allocTables depth contents (i + 1) s = .ok ((), t) →
    allocTables depth contents n s = .ok ((), t') →
    ∀ v, pageGetDirIdx v = pageGetDirIdx kernelStartVma + i →
      entryPresent (contents (pageGetDirIdx kernelStartVma + i) (pageGetTableIdx v)) = true →
      Since Writes t.pages t'.pages (v / pageSize)

/-- The pages of the new tables held no word with a present bit. -/
def CleanContents (contents : ℕ → ℕ → ℕ) (s : Sys PageTables) (n : ℕ) : Prop :=
  ∀ i < n, NewTable s i → ∀ k < pageEntries,
    entryPresent (contents (pageGetDirIdx kernelStartVma + i) k) = false

section Fresh

variable {depth n : ℕ} {contents : ℕ → ℕ → ℕ} {s s' : Sys PageTables}

theorem pageGetTableIdx_lt (vma : ℕ) : pageGetTableIdx vma < pageEntries := by
  rw [pageGetTableIdx_eq]
  exact Nat.mod_lt _ (by decide)

/-- **At the end of the loop**, exactly: what the pages held must be gone. -/
theorem mapsOnlyMapped_iff :
    MapsOnlyMapped depth contents s n ↔ DirtyWritten depth contents s n := by
  constructor
  · intro mapsOnly i small missing t t' installed returned v here dirty
    obtain ⟨events, trace, entries⟩ := allocTables_entry small missing installed returned
    by_cases written : Writes events (v / pageSize)
    · exact ⟨events, trace, written⟩
    · obtain ⟨es, trace', maps⟩ := mapsOnly i small missing t t' installed returned v _ here
        (entries v here) (by rw [entryAfter_of_not_writes written]; exact dirty)
      exact ⟨es, trace', maps.writes⟩
  · intro dirtyWritten i small missing t t' installed returned v entry here found present
    obtain ⟨events, trace, entries⟩ := allocTables_entry small missing installed returned
    rw [entries v here] at found
    cases found
    rcases maps_or_of_present present with maps | ⟨dirty, untouched⟩
    · exact ⟨events, trace, maps⟩
    · obtain ⟨es, trace', written⟩ :=
        dirtyWritten i small missing t t' installed returned v here dirty
      have same : es = events := by
        rw [trace] at trace'
        exact List.reverse_inj.mp (List.append_cancel_right trace').symm
      exact absurd (same ▸ written) untouched

/-- **At every turn of the loop**: the pages must have been clean. -/
theorem mapsOnlyMapped_all_iff (returned : allocTables depth contents n s = .ok ((), s')) :
    (∀ m ≤ n, MapsOnlyMapped depth contents s m) ↔ CleanContents contents s n := by
  constructor
  · intro always i small missing k idx
    by_contra dirty
    obtain ⟨j, split⟩ : ∃ j, n = i + 1 + j := ⟨n - (i + 1), by omega⟩
    rw [split] at returned
    obtain ⟨t, installed, -⟩ := allocTables_prefix returned
    let v := ((pageGetDirIdx kernelStartVma + i) * pageEntries + k) * pageSize
    have page : v / pageSize = (pageGetDirIdx kernelStartVma + i) * pageEntries + k :=
      Nat.mul_div_cancel _ (by decide)
    have here : pageGetDirIdx v = pageGetDirIdx kernelStartVma + i := by
      rw [pageGetDirIdx_eq, page, Nat.add_comm, Nat.add_mul_div_right _ _ (by decide),
        Nat.div_eq_of_lt idx, Nat.zero_add]
    have word : pageGetTableIdx v = k := by
      rw [pageGetTableIdx_eq, page, Nat.add_comm, Nat.add_mul_mod_self_right,
        Nat.mod_eq_of_lt idx]
    -- right after the installation nothing has been mapped
    obtain ⟨events, trace, vma, entry, member, -⟩ :=
      mapsOnlyMapped_iff.mp (always (i + 1) small) i i.lt_succ_self missing t t installed installed
        v here (by rw [word]; simpa using dirty)
    have none : events = [] := by simpa using trace
    rw [none] at member
    exact List.not_mem_nil member
  · intro clean m le
    refine mapsOnlyMapped_iff.mpr fun i small missing t t' _ _ v _ dirty => ?_
    rw [clean i (lt_of_lt_of_le small le) missing _ (pageGetTableIdx_lt v)] at dirty
    cases dirty

end Fresh

end TrashOS
