import TrashOS.Ram.SelfMap

/-!
# The page tables as an abstraction of memory

`Reflects` relates physical memory to the page tables of `PageTables`, where a table is kept
under its directory index and no address is translated.  Every operation of `page.c` does the
same on both sides (`Reflects.step`), as long as it leaves the pages alone that the tables
are reached through, and what the processor finds is the translation of the abstract tables
(`Reflects.walk`).  `runOps_refines` carries this through any sequence of operations.

* `TableOp.Safe` — when a call leaves the tables mapped: the entry it writes is not one the
  tables are reached through, a table it installs is a page of its own, and one it takes
  out is not needed to reach another.
* `Reflects.write`, `Reflects.install`, `Reflects.remove` — the three changes the calls are
  made of.
* `Reflects.safeRun` — a sequence of edits of other pages is safe.
-/

namespace TrashOS

/-- The tables with the directory entry and the table of a region replaced. -/
def PageTables.setRegion (pt : PageTables) (idx entry : ℕ) (t : Option (ℕ → ℕ)) : PageTables :=
  { pt with dir := Function.update pt.dir idx entry, table := Function.update pt.table idx t }

namespace Ram

/-- **The abstract page tables hold what memory holds.** -/
structure Reflects (frame : ℕ) (r : Ram) (pt : PageTables) : Prop extends
    SelfMapped frame r where
  dir : ∀ idx < pageEntries, pt.dir idx = r.dirWord idx
  noTable : ∀ idx < pageEntries, r.lookupWord frame idx = 0 → pt.table idx = none
  words : ∀ idx, r.HasTable frame idx →
    ∃ t, pt.table idx = some t ∧ ∀ j < pageEntries, t j = r.tableWord idx j

section Read

variable {frame vma v page e : ℕ} {r r' : Ram} {pt pt' : PageTables}

namespace Reflects

variable (reflects : Reflects frame r pt)

include reflects

/-- An entry, if its region has a table. -/
theorem entryOf (has : r.HasTable frame (pageGetDirIdx vma)) :
    pt.entryOf vma = some (r.tableWord (pageGetDirIdx vma) (pageGetTableIdx vma)) := by
  obtain ⟨t, there, words⟩ := reflects.words _ has
  unfold PageTables.entryOf
  rw [there, Option.map_some, words _ (pageGetTableIdx_lt vma)]

theorem entryOf_none (word : vma < 2 ^ 32)
    (none : r.lookupWord frame (pageGetDirIdx vma) = 0) : pt.entryOf vma = Option.none := by
  unfold PageTables.entryOf
  rw [reflects.noTable _ (pageGetDirIdx_lt word) none]
  rfl

/-- The present entries are the translation. -/
theorem translation (word : page < pageEntries * pageEntries) :
    TrashOS.translation pt page = r.pageEntry page := by
  have small : page / pageEntries < pageEntries := Nat.div_lt_of_lt_mul word
  have number : page * pageSize / pageSize = page := Nat.mul_div_cancel _ (by decide)
  have dirIdx : pageGetDirIdx (page * pageSize) = page / pageEntries := by
    rw [pageGetDirIdx_eq, number]
  have tableIdx : pageGetTableIdx (page * pageSize) = page % pageEntries := by
    rw [pageGetTableIdx_eq, number]
  unfold TrashOS.translation pageEntry
  rw [dirIdx, reflects.dir _ small]
  split_ifs with present
  · have has : r.HasTable frame (pageGetDirIdx (page * pageSize)) :=
      dirIdx.symm ▸ ⟨small, (reflects.present _ small).mp present⟩
    rw [reflects.entryOf has, dirIdx, tableIdx, Option.filter_some]
  · rfl

/-- **What the processor finds** for an address. -/
theorem walk (word : v < 2 ^ 32) :
    TrashOS.walk r.mem r.cr3 v = (TrashOS.translation pt (v / pageSize)).map fun entry =>
      (entryFrame entry + v % pageSize, entry &&& 0xfff) := by
  rw [walk_eq, reflects.translation]
  unfold pageSize pageEntries
  omega

/-- **`page_get_entry`** reads the entry, or faults where there is no table. -/
theorem pageGetEntry (word : vma < 2 ^ 32) :
    (∃ entry, TrashOS.pageGetEntry vma pt = .ok (entry, pt) ∧
        Ram.pageGetEntry vma r = .ok (entry, r)) ∨
      ((∃ stop, TrashOS.pageGetEntry vma pt = .error stop) ∧
        ∃ fault, Ram.pageGetEntry vma r = .error fault) := by
  unfold Ram.pageGetEntry
  rw [Prog.bind_of_ok (reflects.pageGetTable word)]
  by_cases none : r.lookupWord frame (pageGetDirIdx vma) = 0
  · refine Or.inr ⟨⟨.noTable vma, ?_⟩, .pageFault (tableEntry 0 vma), ?_⟩
    · unfold TrashOS.pageGetEntry
      rw [reflects.entryOf_none word none]
    · rw [none]
      exact load_fault reflects.tableEntry_null
  · have has : r.HasTable frame (pageGetDirIdx vma) := ⟨pageGetDirIdx_lt word, none⟩
    exact Or.inl ⟨_, pageGetEntry_eq_ok.mpr ⟨reflects.entryOf has, rfl⟩,
      load_of_translate (reflects.tableEntry has)⟩

end Reflects

end Read

/-! ## Operations -/

/-- The functions of `page.c` that change the tables. -/
inductive TableOp where
  | setEntry (vma entry : ℕ)
  | remap (vma pma : ℕ)
  | unmap (vma : ℕ)
  | delete (vma : ℕ)
  | setFlags (vma flags : ℕ)
  | setDirEntry (idx tableVma entry : ℕ)
  | tableMap (tableVma vma flags : ℕ)
  | tableUnmap (vma : ℕ)

namespace TableOp

/-- The call, on physical memory. -/
def run : TableOp → RamM Unit
  | setEntry vma entry => pageSetEntry vma entry
  | remap vma pma => pageRemap vma pma
  | unmap vma => pageUnmap vma
  | delete vma => pageDelete vma
  | setFlags vma flags => pageSetFlags vma flags
  | setDirEntry idx tableVma entry => pageSetDirEntry idx tableVma entry
  | tableMap tableVma vma flags => pageTableMap tableVma vma flags
  | tableUnmap vma => pageTableUnmap vma

/-- The call, on the abstract tables.  A page that becomes a table comes with the words it
holds, whatever they are. -/
inductive Step : TableOp → PageTables → PageTables → Prop
  | setEntry {pt pt' : PageTables} {vma entry : ℕ}
      (run : updateEntry vma (fun _ => entry) pt = .ok ((), pt')) :
      Step (.setEntry vma entry) pt pt'
  | remap {pt pt' : PageTables} {vma pma : ℕ}
      (run : TrashOS.pageRemap vma pma pt = .ok ((), pt')) : Step (.remap vma pma) pt pt'
  | unmap {pt pt' : PageTables} {vma : ℕ}
      (run : TrashOS.pageUnmap vma pt = .ok ((), pt')) : Step (.unmap vma) pt pt'
  | delete {pt pt' : PageTables} {vma : ℕ}
      (run : TrashOS.pageDelete vma pt = .ok ((), pt')) : Step (.delete vma) pt pt'
  | setFlags {pt pt' : PageTables} {vma flags : ℕ}
      (run : TrashOS.pageSetFlags vma flags pt = .ok ((), pt')) : Step (.setFlags vma flags) pt pt'
  | setDirEntry {pt : PageTables} {idx tableVma entry : ℕ} (words : ℕ → ℕ)
      (nonnull : tableVma ≠ 0) :
      Step (.setDirEntry idx tableVma entry) pt (pt.setRegion idx entry (some words))
  | clearDirEntry {pt : PageTables} {idx : ℕ} :
      Step (.setDirEntry idx 0 0) pt (pt.setRegion idx 0 none)
  | tableMap {pt : PageTables} {tableVma vma flags pma : ℕ} (words : ℕ → ℕ)
      (run : TrashOS.pageGetPma tableVma pt = .ok (pma, pt)) :
      Step (.tableMap tableVma vma flags) pt
        (pt.setRegion (pageGetDirIdx vma) (pma ||| flags) (some words))
  | tableUnmap {pt : PageTables} {vma : ℕ} :
      Step (.tableUnmap vma) pt (pt.setRegion (pageGetDirIdx vma) 0 none)

/-- No table but that of the region is reached through the region. -/
def Unneeded (frame : ℕ) (r : Ram) (idx : ℕ) : Prop :=
  idx < pageEntries ∧ ∀ page, r.ReservedBut frame idx page → page / pageEntries ≠ idx

/-- The entry of `vma` is in a table, and its page is not one the tables are reached
through. -/
def Free (frame : ℕ) (r : Ram) (vma : ℕ) : Prop :=
  r.HasTable frame (pageGetDirIdx vma) ∧ ¬ r.Reserved frame (vma / pageSize)

/-- **When a call leaves the tables mapped**: entries of other pages are written, a table that
is put into the directory is a mapped page of its own, and one that is taken out is not
needed to reach the others. -/
def Safe (frame : ℕ) (r : Ram) : TableOp → Prop
  | setEntry vma _ => Free frame r vma
  | remap vma _ => Free frame r vma
  | unmap vma => Free frame r vma
  | delete vma => Free frame r vma
  | setFlags vma _ => Free frame r vma
  | setDirEntry idx tableVma entry =>
      Installable r frame idx tableVma entry ∨
        (tableVma = 0 ∧ entry = 0 ∧ Unneeded frame r idx)
  | tableMap tableVma vma flags =>
      ∃ e, r.pageEntry (tableVma / pageSize) = some e ∧ e < 2 ^ 32 ∧ flags < pageSize ∧
        entryPresent flags = true ∧
        Installable r frame (pageGetDirIdx vma) tableVma (entryFrame e ||| flags)
  | tableUnmap vma => Unneeded frame r (pageGetDirIdx vma)

end TableOp

/-! ## Every operation does the same on both sides -/

section Steps

variable {frame vma v idx tableVma entry : ℕ} {r : Ram} {pt pt' : PageTables}

/-- Nothing but the tables matters. -/
theorem Reflects.congr (reflects : Reflects frame r pt) (dir : pt'.dir = pt.dir)
    (table : pt'.table = pt.table) : Reflects frame r pt' :=
  ⟨reflects.toSelfMapped, dir ▸ reflects.dir, table ▸ reflects.noTable, table ▸ reflects.words⟩

/-- **An entry is written.** -/
theorem Reflects.write (reflects : Reflects frame r pt) (free : TableOp.Free frame r vma) :
    Reflects frame (r.tableWritten (pageGetDirIdx vma) (pageGetTableIdx vma) v)
      (pt.write vma v) := by
  obtain ⟨has, unreserved⟩ := free
  have inside := pageGetTableIdx_lt vma
  have number : pageGetDirIdx vma * pageEntries + pageGetTableIdx vma = vma / pageSize := by
    rw [pageGetDirIdx_eq, pageGetTableIdx_eq]
    exact Nat.div_add_mod' _ _
  have self := reflects.toSelfMapped
  refine ⟨self.write has inside (number.symm ▸ unreserved), fun i small => ?_,
    fun i small none => ?_, fun i hasI => ?_⟩
  · rw [self.tableWritten_dirWord has inside small]
    exact reflects.dir i small
  · rw [self.tableWritten_lookupWord has inside small] at none
    have other : i ≠ pageGetDirIdx vma := fun same => has.2 (same ▸ none)
    exact (Function.update_of_ne other _ _).trans (reflects.noTable i small none)
  · have old := (self.tableWritten_hasTable has inside).mp hasI
    obtain ⟨t, there, words⟩ := reflects.words i old
    by_cases here : i = pageGetDirIdx vma
    · subst here
      refine ⟨Function.update t (pageGetTableIdx vma) v, ?_, fun j hj => ?_⟩
      · unfold PageTables.write
        dsimp only
        rw [Function.update_self, there]
        rfl
      · rw [self.tableWritten_tableWord has inside old hj]
        by_cases same : j = pageGetTableIdx vma
        · rw [if_pos ⟨rfl, same⟩, same, Function.update_self]
        · rw [if_neg fun both => same both.2, Function.update_of_ne same]
          exact words j hj
    · refine ⟨t, (Function.update_of_ne here _ _).trans there, fun j hj => ?_⟩
      rw [self.tableWritten_tableWord has inside old hj, if_neg fun both => here both.1]
      exact words j hj

/-- The words of the frame that becomes a table. -/
def frameWords (r : Ram) (f j : ℕ) : ℕ := r.mem (f + 4 * j)

/-- **A table is put into the directory.** -/
theorem Reflects.install (reflects : Reflects frame r pt)
    (new : Installable r frame idx tableVma entry) :
    Reflects frame (r.dirWritten frame idx tableVma entry)
      (pt.setRegion idx entry (some (r.frameWords (entryFrame entry)))) := by
  have self := reflects.toSelfMapped
  have small := new.small
  refine ⟨self.install new, fun i hi => ?_, fun i hi none => ?_, fun i has => ?_⟩
  · rw [self.dirWritten_dirWord small hi]
    unfold PageTables.setRegion
    by_cases here : i = idx
    · rw [if_pos here, here]
      exact Function.update_self _ _ _
    · rw [if_neg here]
      exact (Function.update_of_ne here _ _).trans (reflects.dir i hi)
  · rw [self.dirWritten_lookupWord small hi] at none
    split_ifs at none with here
    · exact absurd none new.nonnull
    · exact (Function.update_of_ne here _ _).trans (reflects.noTable i hi none)
  · by_cases here : i = idx
    · subst here
      refine ⟨_, Function.update_self _ _ _, fun j hj => ?_⟩
      unfold tableWord
      rw [self.dirWritten_tableFrame small small, if_pos rfl]
      refine (self.dirWritten_mem small hj ?_ new.notDir new.notLookup).symm
      rw [entryFrame_eq]
      exact Nat.mul_mod_left _ _
    · have old := (self.dirWritten_hasTable small here).mp has
      obtain ⟨t, there, words⟩ := reflects.words i old
      refine ⟨t, (Function.update_of_ne here _ _).trans there, fun j hj => ?_⟩
      rw [self.dirWritten_tableWord small old here hj]
      exact words j hj

/-- **A table is taken out.** -/
theorem Reflects.remove (reflects : Reflects frame r pt)
    (unneeded : TableOp.Unneeded frame r idx) :
    Reflects frame (r.dirWritten frame idx 0 0) (pt.setRegion idx 0 none) := by
  have self := reflects.toSelfMapped
  obtain ⟨small, unneeded⟩ := unneeded
  refine ⟨self.remove small unneeded, fun i hi => ?_, fun i hi none => ?_, fun i has => ?_⟩
  · rw [self.dirWritten_dirWord small hi]
    unfold PageTables.setRegion
    by_cases here : i = idx
    · rw [if_pos here, here]
      exact Function.update_self _ _ _
    · rw [if_neg here]
      exact (Function.update_of_ne here _ _).trans (reflects.dir i hi)
  · rw [self.dirWritten_lookupWord small hi] at none
    by_cases here : i = idx
    · subst here
      exact Function.update_self _ _ _
    · rw [if_neg here] at none
      exact (Function.update_of_ne here _ _).trans (reflects.noTable i hi none)
  · have here : i ≠ idx := fun same => has.2 (by
      rw [self.dirWritten_lookupWord small has.1, if_pos same])
    have old := (self.dirWritten_hasTable small here).mp has
    obtain ⟨t, there, words⟩ := reflects.words i old
    refine ⟨t, (Function.update_of_ne here _ _).trans there, fun j hj => ?_⟩
    rw [self.dirWritten_tableWord small old here hj]
    exact words j hj

/-- The store through a table. -/
theorem SelfMapped.store (self : SelfMapped frame r)
    (has : r.HasTable frame (pageGetDirIdx vma)) :
    Ram.store (Ram.tableEntry (r.lookupWord frame (pageGetDirIdx vma)) vma) v r =
      .ok ((), r.tableWritten (pageGetDirIdx vma) (pageGetTableIdx vma) v) :=
  store_of_translate (self.tableEntry has)

/-- The load through a table. -/
theorem SelfMapped.load (self : SelfMapped frame r)
    (has : r.HasTable frame (pageGetDirIdx vma)) :
    Ram.load (Ram.tableEntry (r.lookupWord frame (pageGetDirIdx vma)) vma) r =
      .ok (r.tableWord (pageGetDirIdx vma) (pageGetTableIdx vma), r) :=
  load_of_translate (self.tableEntry has)

/-- `page_table_map` does what `page_set_dir_entry` does with the frame of the table. -/
theorem SelfMapped.pageTableMap {e flags : ℕ} (self : SelfMapped frame r)
    (there : r.pageEntry (tableVma / pageSize) = some e) (isWord : e < 2 ^ 32)
    (new : Installable r frame (pageGetDirIdx vma) tableVma (entryFrame e ||| flags)) :
    Ram.pageTableMap tableVma vma flags r =
      .ok ((), r.dirWritten frame (pageGetDirIdx vma) tableVma (entryFrame e ||| flags)) := by
  have small := new.small
  have page := new.page.page_lt
  have has : r.HasTable frame (pageGetDirIdx tableVma) := by
    rw [pageGetDirIdx_eq]
    exact self.hasTable_of_entry there page
  have other : pageGetDirIdx tableVma ≠ pageGetDirIdx vma := fun same =>
    has.2 (same ▸ new.unused)
  set r₁ := r.written (frame + 4 * pageGetDirIdx vma) tableVma
  have lookup : r₁.mem (frame + 4 * pageGetDirIdx tableVma) =
      r.lookupWord frame (pageGetDirIdx tableVma) :=
    written_mem_other _ _ (by omega)
  have kept : ∀ {p}, p < pageEntries * pageEntries → r₁.frameOf p = r.frameOf p := fun word =>
    congrArg _ (self.lookupWritten_pageEntry small word)
  have first : Ram.load (r₁.lookupEntry (pageGetDirIdx tableVma)) r₁ =
      .ok (r.lookupWord frame (pageGetDirIdx tableVma), r₁) := by
    rw [← lookup]
    refine load_of_translate ?_
    have pointer : r₁.pageTableLookup = r.pageTableLookup := rfl
    rw [Ram.lookupEntry, pointer, translate_offset self.pageTableLookup (four_mul_lt has.1),
      kept self.pageTableLookup.page_lt, self.lookupMapped]
    rfl
  have second : Ram.load (Ram.tableEntry (r.lookupWord frame (pageGetDirIdx tableVma)) tableVma)
      r₁ = .ok (e, r₁) := by
    have isPage := self.table _ has
    have word := tableWord_of_entry there
    rw [← pageGetDirIdx_eq, ← pageGetTableIdx_eq] at word
    have same : r₁.mem (r.tableFrame (pageGetDirIdx tableVma) + 4 * pageGetTableIdx tableVma) =
        e := by
      rw [← word]
      exact written_mem_other _ _ (word_ne (r.tableFrame_aligned _) self.lookupFrame
        (self.tableLookup _ has) (pageGetTableIdx_lt _) small)
    rw [← same]
    refine load_of_translate ?_
    rw [Ram.tableEntry, translate_offset isPage (four_mul_lt (pageGetTableIdx_lt _)),
      kept isPage.page_lt, self.tableMapped _ has]
    rfl
  have pma : e &&& Word32.not 0xfff = entryFrame e := by
    rw [show (0xfff : ℕ) = 2 ^ 12 - 1 from rfl, Word32.and_not_low (by decide) isWord,
      entryFrame_eq]
    rfl
  have reads : Ram.pageGetPma tableVma r₁ = .ok (entryFrame e, r₁) := by
    rw [← pma]
    unfold Ram.pageGetPma Ram.pageGetTable
    rw [Prog.bind_of_ok (Prog.bind_of_ok rfl |>.trans first), Prog.bind_of_ok second]
    rfl
  unfold Ram.pageTableMap
  rw [Prog.bind_of_ok (a := r.lookupEntry (pageGetDirIdx vma)) (t := r) rfl,
    Prog.bind_of_ok (store_of_translate (self.lookupEntry small)), Prog.bind_of_ok reads,
    Prog.bind_of_ok rfl]
  exact self.storeDir small

/-! ### Calls -/

/-- A function that writes an entry without looking at the old one. -/
theorem Reflects.overwrite (reflects : Reflects frame r pt) (free : TableOp.Free frame r vma) :
    (do let table ← Ram.pageGetTable vma
        Ram.store (tableEntry table vma) v : RamM Unit) r =
      .ok ((), r.tableWritten (pageGetDirIdx vma) (pageGetTableIdx vma) v) ∧
    ∃ old, pt.entryOf vma = some old := by
  have word := vma_lt free.1.1
  rw [Prog.bind_of_ok (reflects.pageGetTable word)]
  exact ⟨reflects.toSelfMapped.store free.1, _, reflects.entryOf free.1⟩

/-- A function that changes an entry. -/
theorem Reflects.update (reflects : Reflects frame r pt) (free : TableOp.Free frame r vma)
    (f : ℕ → ℕ) :
    ∃ old, pt.entryOf vma = some old ∧
      (do let table ← Ram.pageGetTable vma
          let old ← Ram.load (tableEntry table vma)
          Ram.store (tableEntry table vma) (f old) : RamM Unit) r =
        .ok ((), r.tableWritten (pageGetDirIdx vma) (pageGetTableIdx vma) (f old)) := by
  refine ⟨_, reflects.entryOf free.1, ?_⟩
  have word := vma_lt free.1.1
  rw [Prog.bind_of_ok (reflects.pageGetTable word),
    Prog.bind_of_ok (reflects.toSelfMapped.load free.1)]
  exact reflects.toSelfMapped.store free.1

/-- The same on the abstract tables, with the `invlpg` behind it. -/
theorem updateEntry_invlpg {f : ℕ → ℕ} {old : ℕ} (there : pt.entryOf vma = some old) :
    (do updateEntry vma f
        invlpg vma : PageM Unit) pt =
      .ok ((), (TableEvent.invlpg vma).apply (pt.write vma (f old))) := by
  exact Prog.bind_of_ok (a := ()) (updateEntry_eq_ok.mpr ⟨old, there, rfl⟩)

/-- **Every call does the same on both sides.** -/
theorem Reflects.step {op : TableOp} (reflects : Reflects frame r pt) (safe : op.Safe frame r) :
    ∃ r' pt', op.run r = .ok ((), r') ∧ op.Step pt pt' ∧ Reflects frame r' pt' := by
  cases op with
  | setEntry vma entry =>
      obtain ⟨run, old, there⟩ := reflects.overwrite safe (v := entry)
      exact ⟨_, _, run, .setEntry (updateEntry_eq_ok.mpr ⟨old, there, rfl⟩), reflects.write safe⟩
  | remap vma pma =>
      obtain ⟨old, there, run⟩ := reflects.update safe fun old => old &&& 0xfff ||| pma
      exact ⟨_, _, run, .remap (updateEntry_invlpg there), (reflects.write safe).congr rfl rfl⟩
  | unmap vma =>
      obtain ⟨old, there, run⟩ := reflects.update safe fun old => old &&& Word32.not pagePresent
      exact ⟨_, _, run, .unmap (updateEntry_invlpg there), (reflects.write safe).congr rfl rfl⟩
  | delete vma =>
      obtain ⟨run, old, there⟩ := reflects.overwrite safe (v := 0)
      exact ⟨_, _, run, .delete (updateEntry_invlpg there), (reflects.write safe).congr rfl rfl⟩
  | setFlags vma flags =>
      obtain ⟨old, there, run⟩ := reflects.update safe fun old => old >>> 12 <<< 12 ||| flags
      exact ⟨_, _, run, .setFlags (updateEntry_eq_ok.mpr ⟨old, there, rfl⟩), reflects.write safe⟩
  | setDirEntry idx tableVma entry =>
      rcases safe with new | ⟨rfl, rfl, unneeded⟩
      · exact ⟨_, _, reflects.toSelfMapped.pageSetDirEntry new.small,
          .setDirEntry _ new.nonnull, reflects.install new⟩
      · exact ⟨_, _, reflects.toSelfMapped.pageSetDirEntry unneeded.1, .clearDirEntry,
          reflects.remove unneeded⟩
  | tableMap tableVma vma flags =>
      obtain ⟨e, there, isWord, low, present, new⟩ := safe
      have page := new.page.page_lt
      have has : r.HasTable frame (pageGetDirIdx tableVma) := by
        rw [pageGetDirIdx_eq]
        exact reflects.hasTable_of_entry there page
      have old := reflects.entryOf has
      have word := tableWord_of_entry there
      rw [← pageGetDirIdx_eq, ← pageGetTableIdx_eq] at word
      rw [word] at old
      have pma : entryFrame e = e &&& Word32.not 0xfff := by
        rw [show (0xfff : ℕ) = 2 ^ 12 - 1 from rfl, Word32.and_not_low (by decide) isWord,
          entryFrame_eq]
        rfl
      exact ⟨_, _, reflects.toSelfMapped.pageTableMap there isWord new,
        .tableMap _ (pageGetPma_eq_ok.mpr ⟨e, old, pma, rfl⟩), reflects.install new⟩
  | tableUnmap vma =>
      exact ⟨_, _, reflects.toSelfMapped.pageSetDirEntry safe.1, .tableUnmap,
        reflects.remove safe⟩

end Steps

/-! ## Runs -/

/-- A sequence of calls. -/
def runOps : List TableOp → RamM Unit
  | [] => pure ()
  | op :: ops => do
      op.run
      runOps ops

/-- Every call is safe in the state it is made in. -/
def SafeRun (frame : ℕ) : List TableOp → Ram → Prop
  | [], _ => True
  | op :: ops, r => op.Safe frame r ∧ ∀ r', op.run r = .ok ((), r') → SafeRun frame ops r'

/-- The sequence on the abstract tables. -/
inductive Steps : List TableOp → PageTables → PageTables → Prop
  | nil {pt : PageTables} : Steps [] pt pt
  | cons {op : TableOp} {ops : List TableOp} {pt pt₁ pt' : PageTables} (first : op.Step pt pt₁)
      (rest : Steps ops pt₁ pt') : Steps (op :: ops) pt pt'

/-- **Memory and the abstract page tables stay in step.** A sequence of calls of which each leaves
the tables mapped never faults, and what the processor finds afterwards is what the same calls
make of the abstract tables.  `SafeRun` asks of each call that it does not unmap a page the tables
are reached through.  It is a condition on the memory before the call; for calls that edit entries
of other pages `Reflects.safeRun` discharges it. -/
theorem runOps_refines {frame : ℕ} {r : Ram} {pt : PageTables} {ops : List TableOp}
    (reflects : Reflects frame r pt) (safe : SafeRun frame ops r) :
    ∃ r' pt', runOps ops r = .ok ((), r') ∧ Steps ops pt pt' ∧ Reflects frame r' pt' ∧
      ∀ v < 2 ^ 32, walk r'.mem r'.cr3 v = (translation pt' (v / pageSize)).map fun entry =>
        (entryFrame entry + v % pageSize, entry &&& 0xfff) := by
  induction ops generalizing r pt with
  | nil => exact ⟨r, pt, rfl, .nil, reflects, fun v word => reflects.walk word⟩
  | cons op ops ih =>
      obtain ⟨r₁, pt₁, run, step, reflects₁⟩ := reflects.step safe.1
      obtain ⟨r', pt', rest, steps, final⟩ := ih reflects₁ (safe.2 r₁ run)
      refine ⟨r', pt', ?_, .cons step steps, final⟩
      unfold runOps
      rw [Prog.bind_of_ok run, rest]

/-- The address whose entry a call edits, for the calls that edit one. -/
def TableOp.edited : TableOp → Option ℕ
  | .setEntry vma _ => some vma
  | .remap vma _ => some vma
  | .unmap vma => some vma
  | .delete vma => some vma
  | .setFlags vma _ => some vma
  | _ => none

/-- A page that the tables are not reached through stays one when an entry is written. -/
theorem Reflects.free_write {frame vma vma' v : ℕ} {r : Ram} {pt : PageTables}
    (reflects : Reflects frame r pt) (free : TableOp.Free frame r vma)
    (other : TableOp.Free frame r vma') :
    TableOp.Free frame (r.tableWritten (pageGetDirIdx vma) (pageGetTableIdx vma) v) vma' := by
  have self := reflects.toSelfMapped
  have inside := pageGetTableIdx_lt vma
  refine ⟨(self.tableWritten_hasTable free.1 inside).mpr other.1, fun reserved => other.2 ?_⟩
  refine reserved.imp_right (Or.imp_right (Or.imp_right ?_))
  rintro ⟨i, has, page⟩
  have table := (self.tableWritten_hasTable free.1 inside).mp has
  exact ⟨i, table, page.trans (by rw [self.tableWritten_lookupWord free.1 inside table.1])⟩

/-- A call that edits an entry of a page the tables are not reached through. -/
theorem Reflects.edit {frame vma : ℕ} {r : Ram} {pt : PageTables} {op : TableOp}
    (reflects : Reflects frame r pt) (edited : op.edited = some vma)
    (free : TableOp.Free frame r vma) :
    op.Safe frame r ∧ ∃ v, op.run r =
      .ok ((), r.tableWritten (pageGetDirIdx vma) (pageGetTableIdx vma) v) := by
  cases op with
  | setEntry =>
      cases edited
      exact ⟨free, _, (reflects.overwrite free).1⟩
  | remap =>
      cases edited
      obtain ⟨old, -, run⟩ := reflects.update free _
      exact ⟨free, _, run⟩
  | unmap =>
      cases edited
      obtain ⟨old, -, run⟩ := reflects.update free _
      exact ⟨free, _, run⟩
  | delete =>
      cases edited
      exact ⟨free, _, (reflects.overwrite free).1⟩
  | setFlags =>
      cases edited
      obtain ⟨old, -, run⟩ := reflects.update free _
      exact ⟨free, _, run⟩
  | setDirEntry => cases edited
  | tableMap => cases edited
  | tableUnmap => cases edited

/-- **Edits of such entries are safe**, in any order. -/
theorem Reflects.safeRun {frame : ℕ} {r : Ram} {pt : PageTables} {ops : List TableOp}
    (reflects : Reflects frame r pt)
    (edits : ∀ op ∈ ops, ∃ vma, op.edited = some vma ∧ TableOp.Free frame r vma) :
    SafeRun frame ops r := by
  induction ops generalizing r pt with
  | nil => trivial
  | cons op ops ih =>
      obtain ⟨vma, edited, free⟩ := edits op List.mem_cons_self
      obtain ⟨safe, v, run⟩ := reflects.edit edited free
      refine ⟨safe, fun r' returned => ?_⟩
      cases run.symm.trans returned
      refine ih (reflects.write free) fun op' member => ?_
      obtain ⟨vma', edited', free'⟩ := edits op' (List.mem_cons_of_mem _ member)
      exact ⟨vma', edited', reflects.free_write free free'⟩

/-- A memory with a directory, a lookup table, and one page table that maps all three. -/
def tinyRam : Ram where
  mem a :=
    if a = 0x1004 then 0x3007 else if a = 0x2004 then 0x402000
    else if a = 0x3000 then 0x1003 else if a = 0x3004 then 0x2003
    else if a = 0x3008 then 0x3003 else 0
  cr3 := 0x1000
  pageDir := 0x400000
  pageTableLookup := 0x401000

/-- Its tables. -/
def tinyTables : PageTables where
  dir idx := tinyRam.dirWord idx
  table idx := if idx = 1 then some (tinyRam.tableWord 1) else none
  freeList := 0
  heapEndPma := 0
  trace := []

theorem tinyRam_lookupWord (idx : ℕ) (small : idx < pageEntries) :
    tinyRam.lookupWord 0x2000 idx = if idx = 1 then 0x402000 else 0 := by
  unfold lookupWord tinyRam
  unfold pageEntries at small
  dsimp only
  split_ifs <;> omega

theorem tinyRam_hasTable {idx : ℕ} : tinyRam.HasTable 0x2000 idx ↔ idx = 1 := by
  constructor
  · rintro ⟨small, nonzero⟩
    rw [tinyRam_lookupWord idx small] at nonzero
    by_contra other
    exact nonzero (if_neg other)
  · rintro rfl
    exact ⟨by decide, by decide⟩

theorem tinyRam_reflects : Reflects 0x2000 tinyRam tinyTables := by
  refine
    { pageDir := ⟨by decide, by decide⟩
      pageTableLookup := ⟨by decide, by decide⟩
      cr3 := by decide
      lookupFrame := by decide
      dirMapped := by decide
      lookupMapped := by decide
      present := fun idx small => ?_
      table := fun idx has => ?_
      tableMapped := fun idx has => ?_
      null := by decide
      dirLookup := by decide
      tableDir := fun idx has => ?_
      tableLookup := fun idx has => ?_
      tables := fun i j hasI hasJ _ =>
        (tinyRam_hasTable.mp hasI).trans (tinyRam_hasTable.mp hasJ).symm
      dir := fun _ _ => rfl
      noTable := fun idx small none => ?_
      words := fun idx has => ?_ }
  · rw [tinyRam_lookupWord idx small]
    by_cases here : idx = 1
    · subst here
      decide
    · have word : tinyRam.dirWord idx = 0 := by
        unfold dirWord tinyRam
        unfold pageEntries at small
        dsimp only
        split_ifs <;> omega
      rw [word, if_neg here]
      decide
  · obtain rfl := tinyRam_hasTable.mp has
    exact ⟨by decide, by decide⟩
  · obtain rfl := tinyRam_hasTable.mp has
    decide
  · obtain rfl := tinyRam_hasTable.mp has
    decide
  · obtain rfl := tinyRam_hasTable.mp has
    decide
  · refine if_neg fun here => ?_
    rw [tinyRam_lookupWord idx small, if_pos here] at none
    cases none
  · obtain rfl := tinyRam_hasTable.mp has
    exact ⟨_, rfl, fun _ _ => rfl⟩

/-- The page behind the three is mapped, moved to another frame and unmapped. -/
def tinyOps : List TableOp :=
  [.setEntry 0x403000 0x5003, .remap 0x403000 0x6000, .unmap 0x403000]

theorem tinyOps_free :
    ∀ op ∈ tinyOps, ∃ vma, op.edited = some vma ∧ TableOp.Free 0x2000 tinyRam vma := by
  have free : TableOp.Free 0x2000 tinyRam 0x403000 := by
    refine ⟨tinyRam_hasTable.mpr (by decide), ?_⟩
    rintro (none | dir | lookup | ⟨i, has, table⟩)
    · exact absurd none (by decide)
    · exact absurd dir (by decide)
    · exact absurd lookup (by decide)
    · obtain rfl := tinyRam_hasTable.mp has
      exact absurd table (by decide)
  intro op member
  simp only [tinyOps, List.mem_cons, List.not_mem_nil, or_false] at member
  rcases member with rfl | rfl | rfl
  · exact ⟨_, rfl, free⟩
  · exact ⟨_, rfl, free⟩
  · exact ⟨_, rfl, free⟩

theorem runOps_refines_tiny :
    ∃ r' pt', runOps tinyOps tinyRam = .ok ((), r') ∧ Steps tinyOps tinyTables pt' ∧
      Reflects 0x2000 r' pt' ∧
      ∀ v < 2 ^ 32, walk r'.mem r'.cr3 v = (translation pt' (v / pageSize)).map fun entry =>
        (entryFrame entry + v % pageSize, entry &&& 0xfff) :=
  runOps_refines tinyRam_reflects (tinyRam_reflects.safeRun tinyOps_free)

end Ram

end TrashOS
