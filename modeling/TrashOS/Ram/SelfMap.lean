import TrashOS.Page.Cleanup
import TrashOS.Ram.Machine

/-!
# Page tables that map themselves

`page.c` works as long as the directory, the lookup table and every page table stay mapped
where its pointers say: `SelfMapped`.  The pages this takes are `Reserved`, together with
page zero, which has to stay unmapped, since a null pointer in the lookup table is what
stops an access through it.

A write through a table to the entry of another page changes one word, and with it the
translation of that page only (`SelfMapped.write`); a new table in the directory maps
the pages of its region (`SelfMapped.install`), and taking one out unmaps them
(`SelfMapped.remove`).
-/

namespace TrashOS

namespace Ram

/-- The frame of a page. -/
def frameOf (r : Ram) (page : ℕ) : Option ℕ := (r.pageEntry page).map entryFrame

/-- The word of the lookup table for a region; `frame` is the frame of the lookup table. -/
def lookupWord (r : Ram) (frame idx : ℕ) : ℕ := r.mem (frame + 4 * idx)

/-- A region with a page table. -/
def HasTable (r : Ram) (frame idx : ℕ) : Prop := idx < pageEntries ∧ r.lookupWord frame idx ≠ 0

/-- The pages whose translation `page.c` relies on, besides that of the table of `idx`. -/
def ReservedBut (r : Ram) (frame idx page : ℕ) : Prop :=
  page = r.pageDir / pageSize ∨ page = r.pageTableLookup / pageSize ∨
    ∃ i, r.HasTable frame i ∧ i ≠ idx ∧ page = r.lookupWord frame i / pageSize

/-- The pages whose translation `page.c` relies on. -/
def Reserved (r : Ram) (frame page : ℕ) : Prop :=
  page = 0 ∨ page = r.pageDir / pageSize ∨ page = r.pageTableLookup / pageSize ∨
    ∃ i, r.HasTable frame i ∧ page = r.lookupWord frame i / pageSize

/-- The address of a page. -/
structure IsPage (vma : ℕ) : Prop where
  aligned : vma % pageSize = 0
  word : vma < 2 ^ 32

/-- **The page tables are mapped where `page.c` looks for them.** -/
structure SelfMapped (frame : ℕ) (r : Ram) : Prop where
  pageDir : IsPage r.pageDir
  pageTableLookup : IsPage r.pageTableLookup
  cr3 : r.cr3 % pageSize = 0
  lookupFrame : frame % pageSize = 0
  dirMapped : r.frameOf (r.pageDir / pageSize) = some r.cr3
  lookupMapped : r.frameOf (r.pageTableLookup / pageSize) = some frame
  present : ∀ idx < pageEntries,
    entryPresent (r.dirWord idx) = true ↔ r.lookupWord frame idx ≠ 0
  table : ∀ idx, r.HasTable frame idx → IsPage (r.lookupWord frame idx)
  tableMapped : ∀ idx, r.HasTable frame idx →
    r.frameOf (r.lookupWord frame idx / pageSize) = some (r.tableFrame idx)
  null : r.pageEntry 0 = none
  dirLookup : r.cr3 ≠ frame
  tableDir : ∀ idx, r.HasTable frame idx → r.tableFrame idx ≠ r.cr3
  tableLookup : ∀ idx, r.HasTable frame idx → r.tableFrame idx ≠ frame
  tables : ∀ i j, r.HasTable frame i → r.HasTable frame j → r.tableFrame i = r.tableFrame j → i = j

section Access

variable {r : Ram} {frame vma idx j page base offset : ℕ}

theorem pageGetDirIdx_lt (word : vma < 2 ^ 32) : pageGetDirIdx vma < pageEntries := by
  rw [pageGetDirIdx_eq]
  unfold pageSize pageEntries
  omega

theorem vma_lt (small : pageGetDirIdx vma < pageEntries) : vma < 2 ^ 32 := by
  rw [pageGetDirIdx_eq] at small
  unfold pageSize pageEntries at small
  omega

theorem tableFrame_aligned (r : Ram) (idx : ℕ) : r.tableFrame idx % pageSize = 0 := by
  rw [tableFrame, entryFrame_eq]
  exact Nat.mul_mod_left _ _

/-- Two words of aligned frames. -/
theorem word_ne {F G i j : ℕ} (f : F % pageSize = 0) (g : G % pageSize = 0) (differ : F ≠ G)
    (hi : i < pageEntries) (hj : j < pageEntries) : F + 4 * i ≠ G + 4 * j := by
  unfold pageSize pageEntries at *
  omega

/-- An access to the word at an offset into a page. -/
theorem translate_offset (isPage : IsPage base) (small : offset < pageSize) :
    r.translate (Word32.add base offset) = (r.frameOf (base / pageSize)).map (· + offset) := by
  obtain ⟨aligned, word⟩ := isPage
  have sum : Word32.add base offset = base + offset :=
    Word32.add_eq (by unfold pageSize at *; omega)
  have page : (base + offset) / pageSize = base / pageSize := by
    unfold pageSize at *
    omega
  have rest : (base + offset) % pageSize = offset := by
    unfold pageSize at *
    omega
  rw [sum, translate_eq, page, rest, frameOf, Option.map_map]
  rfl

theorem four_mul_lt (inside : j < pageEntries) : 4 * j < pageSize := by
  unfold pageSize pageEntries at *
  omega

variable (self : SelfMapped frame r)

include self

theorem SelfMapped.lookupEntry (small : idx < pageEntries) :
    r.translate (r.lookupEntry idx) = some (frame + 4 * idx) := by
  rw [Ram.lookupEntry, translate_offset self.pageTableLookup (four_mul_lt small),
    self.lookupMapped]
  rfl

theorem SelfMapped.dirEntry (small : idx < pageEntries) :
    r.translate (r.dirEntry idx) = some (r.cr3 + 4 * idx) := by
  rw [Ram.dirEntry, translate_offset self.pageDir (four_mul_lt small), self.dirMapped]
  rfl

theorem SelfMapped.pageGetTable (word : vma < 2 ^ 32) :
    pageGetTable vma r = .ok (r.lookupWord frame (pageGetDirIdx vma), r) := by
  unfold Ram.pageGetTable
  rw [Prog.bind_of_ok (a := r.lookupEntry (pageGetDirIdx vma)) (t := r) rfl]
  exact load_of_translate (self.lookupEntry (pageGetDirIdx_lt word))

theorem SelfMapped.tableEntry (table : r.HasTable frame (pageGetDirIdx vma)) :
    r.translate (tableEntry (r.lookupWord frame (pageGetDirIdx vma)) vma) =
      some (r.tableFrame (pageGetDirIdx vma) + 4 * pageGetTableIdx vma) := by
  rw [Ram.tableEntry, translate_offset (self.table _ table)
    (four_mul_lt (pageGetTableIdx_lt vma)), self.tableMapped _ table]
  rfl

/-- An access through a null pointer. -/
theorem SelfMapped.tableEntry_null :
    r.translate (Ram.tableEntry 0 vma) = none := by
  have isPage : IsPage 0 := ⟨rfl, by decide⟩
  rw [Ram.tableEntry, translate_offset isPage (four_mul_lt (pageGetTableIdx_lt vma)),
    Nat.zero_div, frameOf, self.null]
  rfl

/-- A mapped page lies in a region with a table. -/
theorem SelfMapped.hasTable_of_entry {e : ℕ} (there : r.pageEntry page = some e)
    (word : page < pageEntries * pageEntries) : r.HasTable frame (page / pageEntries) := by
  have small : page / pageEntries < pageEntries := Nat.div_lt_of_lt_mul word
  refine ⟨small, (self.present _ small).mp ?_⟩
  unfold pageEntry at there
  split at there
  · assumption
  · cases there

omit self in
theorem tableWord_of_entry {e : ℕ} (there : r.pageEntry page = some e) :
    r.tableWord (page / pageEntries) (page % pageEntries) = e := by
  unfold pageEntry at there
  dsimp only at there
  split_ifs at there
  exact Option.some.inj there

theorem SelfMapped.hasTable_of_frame {f : ℕ} (there : r.frameOf page = some f)
    (word : page < pageEntries * pageEntries) : r.HasTable frame (page / pageEntries) := by
  obtain ⟨e, entry, -⟩ := Option.map_eq_some_iff.mp there
  exact self.hasTable_of_entry entry word

omit self in
theorem IsPage.page_lt {vma : ℕ} (isPage : IsPage vma) :
    vma / pageSize < pageEntries * pageEntries := by
  have word := isPage.word
  unfold pageSize pageEntries
  omega

end Access

/-! ## Writing an entry -/

section Write

variable {r : Ram} {frame idx j v page : ℕ}

/-- The state after a word of a page table was written. -/
def tableWritten (r : Ram) (idx j v : ℕ) : Ram := r.written (r.tableFrame idx + 4 * j) v

/-- The words of other frames stay. -/
theorem tableWritten_mem {F i : ℕ} (inside : j < pageEntries) (aligned : F % pageSize = 0)
    (differ : F ≠ r.tableFrame idx) (small : i < pageEntries) :
    (r.tableWritten idx j v).mem (F + 4 * i) = r.mem (F + 4 * i) :=
  written_mem_other _ _ (word_ne aligned (r.tableFrame_aligned idx) differ small inside)

variable (self : SelfMapped frame r) (table : r.HasTable frame idx) (inside : j < pageEntries)

include self table inside

theorem SelfMapped.tableWritten_dirWord {i : ℕ} (small : i < pageEntries) :
    (r.tableWritten idx j v).dirWord i = r.dirWord i :=
  tableWritten_mem inside self.cr3 (self.tableDir idx table).symm small

theorem SelfMapped.tableWritten_lookupWord {i : ℕ} (small : i < pageEntries) :
    (r.tableWritten idx j v).lookupWord frame i = r.lookupWord frame i :=
  tableWritten_mem inside self.lookupFrame (self.tableLookup idx table).symm small

theorem SelfMapped.tableWritten_tableFrame {i : ℕ} (small : i < pageEntries) :
    (r.tableWritten idx j v).tableFrame i = r.tableFrame i :=
  congrArg entryFrame (self.tableWritten_dirWord table inside small)

/-- One word of one table changes. -/
theorem SelfMapped.tableWritten_tableWord {i k : ℕ} (other : r.HasTable frame i)
    (small : k < pageEntries) :
    (r.tableWritten idx j v).tableWord i k =
      if i = idx ∧ k = j then v else r.tableWord i k := by
  unfold tableWord
  rw [self.tableWritten_tableFrame table inside other.1]
  split_ifs with same
  · obtain ⟨rfl, rfl⟩ := same
    exact written_mem_same _ _ _
  · by_cases frames : i = idx
    · subst frames
      refine written_mem_other _ _ fun equal => same ⟨rfl, ?_⟩
      omega
    · exact tableWritten_mem inside (r.tableFrame_aligned i)
        (fun equal => frames (self.tables i idx other table equal)) small

theorem SelfMapped.tableWritten_hasTable {i : ℕ} :
    (r.tableWritten idx j v).HasTable frame i ↔ r.HasTable frame i := by
  unfold HasTable
  refine and_congr_right fun small => ?_
  rw [self.tableWritten_lookupWord table inside small]

/-- **One translation changes.** -/
theorem SelfMapped.tableWritten_pageEntry (word : page < pageEntries * pageEntries) :
    (r.tableWritten idx j v).pageEntry page =
      if page = idx * pageEntries + j then (if entryPresent v then some v else none)
      else r.pageEntry page := by
  have small : page / pageEntries < pageEntries := Nat.div_lt_of_lt_mul word
  have low : page % pageEntries < pageEntries := Nat.mod_lt _ (by decide)
  have split := Nat.div_add_mod' page pageEntries
  unfold pageEntry
  rw [self.tableWritten_dirWord table inside small]
  by_cases there : entryPresent (r.dirWord (page / pageEntries)) = true
  · have other : r.HasTable frame (page / pageEntries) :=
      ⟨small, (self.present _ small).mp there⟩
    rw [if_pos there, if_pos there, self.tableWritten_tableWord table inside other low]
    have same : page / pageEntries = idx ∧ page % pageEntries = j ↔
        page = idx * pageEntries + j := by
      unfold pageEntries at *
      omega
    simp only [same]
    split_ifs <;> rfl
  · rw [if_neg there, if_neg there, if_neg]
    rintro rfl
    have region : (idx * pageEntries + j) / pageEntries = idx := by
      unfold pageEntries at *
      omega
    rw [region] at there
    exact there ((self.present idx table.1).mpr table.2)

/-- **The tables stay mapped** when the page is not reserved. -/
theorem SelfMapped.write (free : ¬ r.Reserved frame (idx * pageEntries + j)) :
    SelfMapped frame (r.tableWritten idx j v) := by
  have kept : ∀ {page}, page < pageEntries * pageEntries → r.Reserved frame page →
      (r.tableWritten idx j v).pageEntry page = r.pageEntry page := fun word reserved => by
    rw [self.tableWritten_pageEntry table inside word, if_neg]
    rintro rfl
    exact free reserved
  have keptFrame : ∀ {page}, page < pageEntries * pageEntries → r.Reserved frame page →
      (r.tableWritten idx j v).frameOf page = r.frameOf page := fun word reserved =>
    congrArg _ (kept word reserved)
  have tableOf : ∀ {i}, (r.tableWritten idx j v).HasTable frame i → r.HasTable frame i :=
    (self.tableWritten_hasTable table inside).mp
  refine
    { pageDir := self.pageDir
      pageTableLookup := self.pageTableLookup
      cr3 := self.cr3
      lookupFrame := self.lookupFrame
      dirMapped := (keptFrame self.pageDir.page_lt (Or.inr (Or.inl rfl))).trans self.dirMapped
      lookupMapped := (keptFrame self.pageTableLookup.page_lt
        (Or.inr (Or.inr (Or.inl rfl)))).trans self.lookupMapped
      present := fun i small => ?_
      table := fun i has => ?_
      tableMapped := fun i has => ?_
      null := (kept (by decide) (Or.inl rfl)).trans self.null
      dirLookup := self.dirLookup
      tableDir := fun i has => ?_
      tableLookup := fun i has => ?_
      tables := fun i k hasI hasK same => ?_ }
  · rw [self.tableWritten_dirWord table inside small,
      self.tableWritten_lookupWord table inside small]
    exact self.present i small
  · rw [self.tableWritten_lookupWord table inside has.1]
    exact self.table i (tableOf has)
  · have page := (self.table i (tableOf has)).page_lt
    rw [self.tableWritten_lookupWord table inside has.1,
      self.tableWritten_tableFrame table inside has.1,
      keptFrame page (Or.inr (Or.inr (Or.inr ⟨i, tableOf has, rfl⟩)))]
    exact self.tableMapped i (tableOf has)
  · rw [self.tableWritten_tableFrame table inside has.1]
    exact self.tableDir i (tableOf has)
  · rw [self.tableWritten_tableFrame table inside has.1]
    exact self.tableLookup i (tableOf has)
  · rw [self.tableWritten_tableFrame table inside hasI.1,
      self.tableWritten_tableFrame table inside hasK.1] at same
    exact self.tables i k (tableOf hasI) (tableOf hasK) same

end Write

/-! ## Writing the directory -/

section Directory

variable {r : Ram} {frame idx tableVma entry page : ℕ}

/-- The state after `page_set_dir_entry`. -/
def dirWritten (r : Ram) (frame idx tableVma entry : ℕ) : Ram :=
  (r.written (frame + 4 * idx) tableVma).written (r.cr3 + 4 * idx) entry

section Words

variable (self : SelfMapped frame r) (small : idx < pageEntries) {i k : ℕ} (hi : i < pageEntries)

include self small hi

theorem SelfMapped.dirWritten_mem {F : ℕ} (aligned : F % pageSize = 0) (notDir : F ≠ r.cr3)
    (notLookup : F ≠ frame) :
    (r.dirWritten frame idx tableVma entry).mem (F + 4 * i) = r.mem (F + 4 * i) := by
  rw [dirWritten, written_mem_other _ _ (word_ne aligned self.cr3 notDir hi small),
    written_mem_other _ _ (word_ne aligned self.lookupFrame notLookup hi small)]

theorem SelfMapped.dirWritten_dirWord :
    (r.dirWritten frame idx tableVma entry).dirWord i = if i = idx then entry else r.dirWord i := by
  unfold dirWord dirWritten
  split_ifs with same
  · rw [same]
    exact written_mem_same _ _ _
  · have differ : r.cr3 + 4 * i ≠ r.cr3 + 4 * idx := fun equal => same (by omega)
    exact (written_mem_other (r.written (frame + 4 * idx) tableVma) entry differ).trans
      (written_mem_other _ _ (word_ne self.cr3 self.lookupFrame self.dirLookup hi small))

theorem SelfMapped.dirWritten_lookupWord :
    (r.dirWritten frame idx tableVma entry).lookupWord frame i =
      if i = idx then tableVma else r.lookupWord frame i := by
  unfold lookupWord dirWritten
  rw [written_mem_other _ _ (word_ne self.lookupFrame self.cr3 self.dirLookup.symm hi small)]
  split_ifs with same
  · rw [same]
    exact written_mem_same _ _ _
  · exact written_mem_other _ _ fun equal => same (by omega)

theorem SelfMapped.dirWritten_tableFrame :
    (r.dirWritten frame idx tableVma entry).tableFrame i =
      if i = idx then entryFrame entry else r.tableFrame i := by
  unfold tableFrame
  rw [self.dirWritten_dirWord small hi]
  exact apply_ite _ _ _ _

end Words

variable (self : SelfMapped frame r) (small : idx < pageEntries)

include self small

/-- The tables of other regions stay. -/
theorem SelfMapped.dirWritten_tableWord {i k : ℕ} (has : r.HasTable frame i) (other : i ≠ idx)
    (hk : k < pageEntries) :
    (r.dirWritten frame idx tableVma entry).tableWord i k = r.tableWord i k := by
  unfold tableWord
  rw [self.dirWritten_tableFrame small has.1, if_neg other]
  exact self.dirWritten_mem small hk (r.tableFrame_aligned i) (self.tableDir i has)
    (self.tableLookup i has)

/-- **The pages of other regions** keep their translation. -/
theorem SelfMapped.dirWritten_pageEntry (word : page < pageEntries * pageEntries)
    (other : page / pageEntries ≠ idx) :
    (r.dirWritten frame idx tableVma entry).pageEntry page = r.pageEntry page := by
  have inside : page / pageEntries < pageEntries := Nat.div_lt_of_lt_mul word
  have low : page % pageEntries < pageEntries := Nat.mod_lt _ (by decide)
  unfold pageEntry
  rw [self.dirWritten_dirWord small inside, if_neg other]
  by_cases there : entryPresent (r.dirWord (page / pageEntries)) = true
  · have has : r.HasTable frame (page / pageEntries) :=
      ⟨inside, (self.present _ inside).mp there⟩
    rw [if_pos there, if_pos there, self.dirWritten_tableWord small has other low]
  · rw [if_neg there, if_neg there]

theorem SelfMapped.dirWritten_frameOf (word : page < pageEntries * pageEntries)
    (other : page / pageEntries ≠ idx) :
    (r.dirWritten frame idx tableVma entry).frameOf page = r.frameOf page :=
  congrArg _ (self.dirWritten_pageEntry small word other)

theorem SelfMapped.dirWritten_hasTable {i : ℕ} (other : i ≠ idx) :
    (r.dirWritten frame idx tableVma entry).HasTable frame i ↔ r.HasTable frame i := by
  unfold HasTable
  refine and_congr_right fun hi => ?_
  rw [self.dirWritten_lookupWord small hi, if_neg other]

/-- The lookup table has no part in the translation. -/
theorem SelfMapped.lookupWritten_pageEntry (word : page < pageEntries * pageEntries) :
    (r.written (frame + 4 * idx) tableVma).pageEntry page = r.pageEntry page := by
  have inside : page / pageEntries < pageEntries := Nat.div_lt_of_lt_mul word
  have low : page % pageEntries < pageEntries := Nat.mod_lt _ (by decide)
  have dir : (r.written (frame + 4 * idx) tableVma).dirWord (page / pageEntries) =
      r.dirWord (page / pageEntries) :=
    written_mem_other _ _ (word_ne self.cr3 self.lookupFrame self.dirLookup inside small)
  unfold pageEntry
  rw [dir]
  by_cases there : entryPresent (r.dirWord (page / pageEntries)) = true
  · have has : r.HasTable frame (page / pageEntries) :=
      ⟨inside, (self.present _ inside).mp there⟩
    have table : (r.written (frame + 4 * idx) tableVma).tableWord (page / pageEntries)
        (page % pageEntries) = r.tableWord (page / pageEntries) (page % pageEntries) := by
      unfold tableWord tableFrame
      rw [dir]
      exact written_mem_other _ _ (word_ne (r.tableFrame_aligned _) self.lookupFrame
        (self.tableLookup _ has) low small)
    rw [table]
  · rw [if_neg there, if_neg there]

/-- The store to the directory, after that to the lookup table. -/
theorem SelfMapped.storeDir :
    Ram.store ((r.written (frame + 4 * idx) tableVma).dirEntry idx) entry
      (r.written (frame + 4 * idx) tableVma) = .ok ((), r.dirWritten frame idx tableVma entry) := by
  refine store_of_translate ?_
  have word := self.pageDir.page_lt
  have stays : (r.written (frame + 4 * idx) tableVma).frameOf (r.pageDir / pageSize) =
      some r.cr3 := by
    rw [← self.dirMapped]
    exact congrArg _ (self.lookupWritten_pageEntry small word)
  rw [Ram.dirEntry, written_pageDir, translate_offset self.pageDir (four_mul_lt small), stays]
  rfl

/-- `page_set_dir_entry` writes two words. -/
theorem SelfMapped.pageSetDirEntry :
    pageSetDirEntry idx tableVma entry r = .ok ((), r.dirWritten frame idx tableVma entry) := by
  unfold Ram.pageSetDirEntry
  rw [Prog.bind_of_ok (a := r.lookupEntry idx) (t := r) rfl,
    Prog.bind_of_ok (store_of_translate (self.lookupEntry small)),
    Prog.bind_of_ok rfl]
  exact self.storeDir small

/-! ### A table is put into the directory -/

/-- A page that can become the page table of a region: it is mapped to a frame that is not
in use for the tables, and `entry` is a present entry with that frame. -/
structure Installable (r : Ram) (frame idx tableVma entry : ℕ) : Prop where
  small : idx < pageEntries
  nonzero : idx ≠ 0
  unused : r.lookupWord frame idx = 0
  page : IsPage tableVma
  nonnull : tableVma ≠ 0
  present : entryPresent entry = true
  mapped : r.frameOf (tableVma / pageSize) = some (entryFrame entry)
  notDir : entryFrame entry ≠ r.cr3
  notLookup : entryFrame entry ≠ frame
  notTable : ∀ i, r.HasTable frame i → r.tableFrame i ≠ entryFrame entry

omit self small in
/-- **The tables stay mapped**, and the new one is. -/
theorem SelfMapped.install (self : SelfMapped frame r)
    (new : Installable r frame idx tableVma entry) :
    SelfMapped frame (r.dirWritten frame idx tableVma entry) := by
  have small := new.small
  have unused : ∀ {i}, r.HasTable frame i → i ≠ idx := fun has same => has.2 (same ▸ new.unused)
  have kept : ∀ {page f}, page < pageEntries * pageEntries → r.frameOf page = some f →
      (r.dirWritten frame idx tableVma entry).frameOf page = some f := fun word there => by
    rw [self.dirWritten_frameOf small word (unused (self.hasTable_of_frame there word)), there]
  have tableOf : ∀ {i}, (r.dirWritten frame idx tableVma entry).HasTable frame i →
      i = idx ∨ (i ≠ idx ∧ r.HasTable frame i) := fun {i} has =>
    or_iff_not_imp_left.mpr fun other => ⟨other, (self.dirWritten_hasTable small other).mp has⟩
  have frames : ∀ {i}, (r.dirWritten frame idx tableVma entry).HasTable frame i →
      (r.dirWritten frame idx tableVma entry).tableFrame i =
        if i = idx then entryFrame entry else r.tableFrame i := fun has =>
    self.dirWritten_tableFrame small has.1
  refine
    { pageDir := self.pageDir
      pageTableLookup := self.pageTableLookup
      cr3 := self.cr3
      lookupFrame := self.lookupFrame
      dirMapped := kept self.pageDir.page_lt self.dirMapped
      lookupMapped := kept self.pageTableLookup.page_lt self.lookupMapped
      present := fun i hi => ?_
      table := fun i has => ?_
      tableMapped := fun i has => ?_
      null := ?_
      dirLookup := self.dirLookup
      tableDir := fun i has => ?_
      tableLookup := fun i has => ?_
      tables := fun i k hasI hasK same => ?_ }
  · rw [self.dirWritten_dirWord small hi, self.dirWritten_lookupWord small hi]
    split_ifs with same
    · exact iff_of_true new.present new.nonnull
    · exact self.present i hi
  · rw [self.dirWritten_lookupWord small has.1]
    rcases tableOf has with rfl | ⟨other, old⟩
    · rw [if_pos rfl]
      exact new.page
    · rw [if_neg other]
      exact self.table i old
  · rw [self.dirWritten_lookupWord small has.1, frames has]
    rcases tableOf has with rfl | ⟨other, old⟩
    · rw [if_pos rfl, if_pos rfl]
      exact kept new.page.page_lt new.mapped
    · rw [if_neg other, if_neg other]
      exact kept (self.table i old).page_lt (self.tableMapped i old)
  · rw [self.dirWritten_pageEntry small (by decide) (by rw [Nat.zero_div]; exact new.nonzero.symm)]
    exact self.null
  · rw [frames has]
    rcases tableOf has with rfl | ⟨other, old⟩
    · rw [if_pos rfl]
      exact new.notDir
    · rw [if_neg other]
      exact self.tableDir i old
  · rw [frames has]
    rcases tableOf has with rfl | ⟨other, old⟩
    · rw [if_pos rfl]
      exact new.notLookup
    · rw [if_neg other]
      exact self.tableLookup i old
  · rw [frames hasI, frames hasK] at same
    rcases tableOf hasI with rfl | ⟨otherI, oldI⟩
    · rcases tableOf hasK with rfl | ⟨otherK, oldK⟩
      · rfl
      · rw [if_pos rfl, if_neg otherK] at same
        exact absurd same.symm (new.notTable k oldK)
    · rcases tableOf hasK with rfl | ⟨otherK, oldK⟩
      · rw [if_neg otherI, if_pos rfl] at same
        exact absurd same (new.notTable i oldI)
      · rw [if_neg otherI, if_neg otherK] at same
        exact self.tables i k oldI oldK same

/-! ### A table is taken out -/

/-- **The other tables stay mapped** when they do not need the region. -/
theorem SelfMapped.remove
    (unneeded : ∀ page, r.ReservedBut frame idx page → page / pageEntries ≠ idx) :
    SelfMapped frame (r.dirWritten frame idx 0 0) := by
  have kept : ∀ {page f}, page < pageEntries * pageEntries → r.ReservedBut frame idx page →
      r.frameOf page = some f → (r.dirWritten frame idx 0 0).frameOf page = some f :=
    fun word reserved there => by
      rw [self.dirWritten_frameOf small word (unneeded _ reserved), there]
  have tableOf : ∀ {i}, (r.dirWritten frame idx 0 0).HasTable frame i →
      i ≠ idx ∧ r.HasTable frame i := fun {i} has => by
    have other : i ≠ idx := fun same => has.2 (by
      rw [self.dirWritten_lookupWord small has.1, if_pos same])
    exact ⟨other, (self.dirWritten_hasTable small other).mp has⟩
  have frames : ∀ {i}, (r.dirWritten frame idx 0 0).HasTable frame i →
      (r.dirWritten frame idx 0 0).tableFrame i = r.tableFrame i := fun has => by
    rw [self.dirWritten_tableFrame small has.1, if_neg (tableOf has).1]
  refine
    { pageDir := self.pageDir
      pageTableLookup := self.pageTableLookup
      cr3 := self.cr3
      lookupFrame := self.lookupFrame
      dirMapped := kept self.pageDir.page_lt (Or.inl rfl) self.dirMapped
      lookupMapped := kept self.pageTableLookup.page_lt (Or.inr (Or.inl rfl)) self.lookupMapped
      present := fun i hi => ?_
      table := fun i has => ?_
      tableMapped := fun i has => ?_
      null := ?_
      dirLookup := self.dirLookup
      tableDir := fun i has => frames has ▸ self.tableDir i (tableOf has).2
      tableLookup := fun i has => frames has ▸ self.tableLookup i (tableOf has).2
      tables := fun i k hasI hasK same => ?_ }
  · rw [self.dirWritten_dirWord small hi, self.dirWritten_lookupWord small hi]
    split_ifs with same
    · exact iff_of_false (by decide) (fun nonzero => nonzero rfl)
    · exact self.present i hi
  · obtain ⟨other, old⟩ := tableOf has
    rw [self.dirWritten_lookupWord small has.1, if_neg other]
    exact self.table i old
  · obtain ⟨other, old⟩ := tableOf has
    rw [self.dirWritten_lookupWord small has.1, if_neg other, frames has]
    exact kept (self.table i old).page_lt (Or.inr (Or.inr ⟨i, old, other, rfl⟩))
      (self.tableMapped i old)
  · by_cases here : idx = 0
    · unfold pageEntry
      rw [Nat.zero_div, self.dirWritten_dirWord small (by decide), if_pos here.symm]
      rfl
    · rw [self.dirWritten_pageEntry small (by decide) (by rw [Nat.zero_div]; exact Ne.symm here)]
      exact self.null
  · rw [frames hasI, frames hasK] at same
    exact self.tables i k (tableOf hasI).2 (tableOf hasK).2 same

end Directory

end Ram

end TrashOS
