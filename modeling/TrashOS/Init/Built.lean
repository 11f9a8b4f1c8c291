import TrashOS.Init.Map
import Mathlib.Data.List.Nodup

/-!
# What `init_page_map` builds

`Built sym dirs map s` says what the memory of `init.c` holds while the address space is
under construction.  `dirs` are the indices with a page table in the order in which the
tables were made: the table of the `k`th one is the `k`th page behind the kernel image,
and its lookup entry is the `k`th offset.  `map` says for each page to which frame and
with which flags it is mapped; all other entries of the tables are zero.

Making a table (`Built.tableMade`) changes `dirs` and leaves `map` alone, writing an entry
(`Built.entrySet`) does the opposite, and `init_page_map` is either the second or both
(`Built.mapped`).  What the processor finds is `map` (`Built.walk_eq`).
-/

namespace TrashOS

/-! ## Entries -/

/-- A frame and flags that make a present entry. -/
structure IsEntry (pma flags : ℕ) : Prop where
  aligned : pma % pageSize = 0
  word : pma < 2 ^ 32
  low : flags < pageSize
  present : entryPresent flags = true

theorem entryFrame_eq (entry : ℕ) : entryFrame entry = entry / pageSize * pageSize := by
  rw [entryFrame, Nat.shiftRight_eq_div_pow, Nat.shiftLeft_eq]
  rfl

theorem entryPresent_eq (entry : ℕ) : entryPresent entry = decide (entry % 2 = 1) := by
  unfold entryPresent pagePresent
  rw [Nat.and_one_is_mod]
  refine decide_eq_decide.mpr ?_
  omega

section Entries

variable {pma flags : ℕ} (entry : IsEntry pma flags)

include entry

theorem IsEntry.eq_add : pma ||| flags = pma + flags := by
  have aligned := entry.aligned
  have low := entry.low
  unfold pageSize at aligned low
  have multiple : pma = 2 ^ 12 * (pma / 2 ^ 12) := by omega
  rw [multiple]
  exact (Nat.two_pow_add_eq_or_of_lt low _).symm

theorem IsEntry.frame_eq : entryFrame (pma ||| flags) = pma := by
  have aligned := entry.aligned
  have low := entry.low
  rw [entry.eq_add, entryFrame_eq]
  unfold pageSize at *
  omega

theorem IsEntry.flags_eq : (pma ||| flags) &&& 0xfff = flags := by
  have aligned := entry.aligned
  have low := entry.low
  rw [entry.eq_add, show (0xfff : ℕ) = 2 ^ 12 - 1 from rfl, Word32.and_low]
  unfold pageSize at *
  omega

theorem IsEntry.present_eq : entryPresent (pma ||| flags) = true := by
  have aligned := entry.aligned
  have present := entry.present
  rw [entryPresent_eq, decide_eq_true_eq] at present ⊢
  rw [entry.eq_add]
  unfold pageSize at aligned
  omega

/-- The frame, as `page_get_pma` reads it. -/
theorem IsEntry.mask_eq : (pma ||| flags) &&& Word32.not 0xfff = pma := by
  have frame := entry.frame_eq
  have word := entry.word
  have aligned := entry.aligned
  have low := entry.low
  rw [entry.eq_add, entryFrame_eq] at frame
  rw [entry.eq_add, show (0xfff : ℕ) = 2 ^ 12 - 1 from rfl, Word32.and_not_low (by decide)]
  · exact frame
  · unfold pageSize at *
    omega

end Entries

/-- The entry of a page. -/
def entryWord : Option (ℕ × ℕ) → ℕ
  | none => 0
  | some (pma, flags) => pma ||| flags

/-! ## The invariant -/

/-- The `k`th page table. -/
def LinkSymbols.tableAt (sym : LinkSymbols) (k : ℕ) : ℕ := sym.kernelEndPma + k * pageSize

/-- The flags of a directory entry. -/
def tableFlags : ℕ := pagePublic ||| pageWrite ||| pagePresent

/-- **The address space under construction.** -/
structure Built (sym : LinkSymbols) (dirs : List ℕ) (map : ℕ → Option (ℕ × ℕ))
    (s : InitState) : Prop where
  nodup : dirs.Nodup
  below : ∀ idx ∈ dirs, idx < pageEntries
  entries : ∀ page pma flags, map page = some (pma, flags) → IsEntry pma flags
  covered : ∀ page, page / pageEntries ∉ dirs → map page = none
  dir : ∀ k idx, dirs[k]? = some idx → s.mem (sym.pageDir idx) = sym.tableAt k ||| tableFlags
  lookup : ∀ k idx, dirs[k]? = some idx →
    s.mem (sym.pageTableLookup idx) = (k + 1) * pageSize
  table : ∀ k idx, dirs[k]? = some idx → ∀ j < pageEntries,
    s.mem (sym.tableAt k + 4 * j) = entryWord (map (idx * pageEntries + j))
  noDir : ∀ idx < pageEntries, idx ∉ dirs → s.mem (sym.pageDir idx) = 0
  noLookup : ∀ idx < pageEntries, idx ∉ dirs → s.mem (sym.pageTableLookup idx) = 0
  fits : sym.tableAt dirs.length ≤ 2 ^ 32
  nextPma : s.nextPma = sym.tableAt dirs.length % 2 ^ 32
  offset : s.tableVmaOffset = (dirs.length + 1) * pageSize

/-- The page tables lie behind `init_page_struct`, in whole pages. -/
structure LinkSymbols.TablesBehind (sym : LinkSymbols) : Prop where
  aligned : sym.kernelEndPma % pageSize = 0
  behind : sym.initPageStruct + 2 * pageSize ≤ sym.kernelEndPma

/-! ## The two changes -/

/-- A new page table for the region of `vma`, behind the others. -/
def InitState.tableMade (sym : LinkSymbols) (vma : ℕ) (s : InitState) : InitState :=
  { s with
    mem := Function.update (Function.update
      (Loop.upto (pageSize / 8) (clearEntry s.nextPma) s.mem)
        (sym.pageTableLookup (vma >>> 22)) s.tableVmaOffset)
        (sym.pageDir (vma >>> 22)) (s.nextPma ||| pagePublic ||| pageWrite ||| pagePresent)
    nextPma := Word32.add s.nextPma pageSize
    tableVmaOffset := Word32.add s.tableVmaOffset pageSize }

/-- An entry of a page table is written, the last thing `init_page_map` does. -/
def InitState.entrySet (a word : ℕ) (s : InitState) : InitState :=
  { s with mem := Function.update s.mem a word, maps := Function.update s.mem a word :: s.maps }

section Code

variable {sym : LinkSymbols} {s : InitState} {vma pma flags : ℕ}

/-- A page whose region has no table yet. -/
theorem initPageMap_of_absent (absent : s.mem (sym.pageDir (vma >>> 22)) &&& pagePresent = 0)
    (aligned : align s.nextPma pageSize = s.nextPma) :
    initPageMap sym vma pma flags s = .ok ((), (s.tableMade sym vma).entrySet
      (Word32.add s.nextPma (4 * (vma >>> 12 &&& 0x3ff))) (pma ||| flags)) := by
  have run : initPageMap sym vma pma flags s = .ok ((),
      let a := Word32.add (align s.nextPma pageSize) (4 * (vma >>> 12 &&& 0x3ff))
      let t := { s with
        mem := Function.update (Function.update
          (Loop.upto (pageSize / 8) (clearEntry (align s.nextPma pageSize)) s.mem)
            (sym.pageTableLookup (vma >>> 22)) s.tableVmaOffset) (sym.pageDir (vma >>> 22))
            (align s.nextPma pageSize ||| pagePublic ||| pageWrite ||| pagePresent)
        nextPma := Word32.add (align s.nextPma pageSize) pageSize
        tableVmaOffset := Word32.add s.tableVmaOffset pageSize }
      let mem := Function.update t.mem a pma
      { t with
        mem := Function.update mem a (mem a ||| flags)
        maps := Function.update mem a (mem a ||| flags) :: s.maps }) := by
    unfold initPageMap
    rw [Prog.bind_of_ok (m := initLoad _) (a := s.mem (sym.pageDir (vma >>> 22))) (t := s) rfl,
      if_pos absent]
    rfl
  rw [run, aligned]
  dsimp only
  rw [Function.update_self, Function.update_idem]
  rfl

/-- A page whose region has a table. -/
theorem initPageMap_of_present (present : s.mem (sym.pageDir (vma >>> 22)) &&& pagePresent ≠ 0)
    {a : ℕ} (address : Word32.add (entryFrame (s.mem (sym.pageDir (vma >>> 22))))
      (4 * (vma >>> 12 &&& 0x3ff)) = a) :
    initPageMap sym vma pma flags s =
      .ok ((), s.entrySet a ((s.mem a &&& 0xfff ||| pma) ||| flags)) := by
  have run : initPageMap sym vma pma flags s = .ok ((),
      let a := Word32.add (entryFrame (s.mem (sym.pageDir (vma >>> 22))))
        (4 * (vma >>> 12 &&& 0x3ff))
      let mem := Function.update s.mem a (s.mem a &&& 0xfff ||| pma)
      { s with
        mem := Function.update mem a (mem a ||| flags)
        maps := Function.update mem a (mem a ||| flags) :: s.maps }) := by
    unfold initPageMap
    rw [Prog.bind_of_ok (m := initLoad _) (a := s.mem (sym.pageDir (vma >>> 22))) (t := s) rfl,
      if_neg present]
    rfl
  rw [run, address]
  dsimp only
  rw [Function.update_self, Function.update_idem]
  rfl

end Code

/-- `init_page_clear` zeroes the words of its page and no other. -/
theorem clearEntry_upto (pma n : ℕ) (mem : ℕ → ℕ) (word : pma + 8 * n ≤ 2 ^ 32) :
    (∀ j < 2 * n, Loop.upto n (clearEntry pma) mem (pma + 4 * j) = 0) ∧
      ∀ a, a < pma ∨ pma + 8 * n ≤ a → Loop.upto n (clearEntry pma) mem a = mem a := by
  refine Loop.upto_invariant (motive := fun k (mem' : ℕ → ℕ) =>
    (∀ j < 2 * k, mem' (pma + 4 * j) = 0) ∧
      ∀ a, a < pma ∨ pma + 8 * k ≤ a → mem' a = mem a) n
    ⟨fun j small => by omega, fun a _ => rfl⟩ ?_
  rintro k small mem' ⟨cleared, others⟩
  have low : Word32.add pma (8 * k) = pma + 8 * k := Word32.add_eq (by omega)
  have high : Word32.add pma (8 * k + 4) = pma + (8 * k + 4) := Word32.add_eq (by omega)
  unfold clearEntry
  rw [low, high]
  constructor
  · intro j bound
    by_cases last : pma + 4 * j = pma + (8 * k + 4)
    · rw [last, Function.update_self]
    by_cases before : pma + 4 * j = pma + 8 * k
    · rw [Function.update_of_ne last, before, Function.update_self]
    · rw [Function.update_of_ne last, Function.update_of_ne before]
      exact cleared j (by omega)
  · intro a outside
    rw [Function.update_of_ne (by omega), Function.update_of_ne (by omega)]
    exact others a (by omega)

/-! ## The invariant is kept -/

section Steps

variable {sym : LinkSymbols} {s : InitState} {dirs : List ℕ} {map : ℕ → Option (ℕ × ℕ)}
  {vma pma flags page k j idx : ℕ}

theorem getElem?_snoc {x i : ℕ} :
    (dirs ++ [x])[k]? = some i ↔ dirs[k]? = some i ∨ (k = dirs.length ∧ x = i) := by
  rcases lt_trichotomy k dirs.length with before | rfl | behind
  · rw [List.getElem?_append_left before]
    simp [before.ne]
  · simp
  · rw [List.getElem?_eq_none (by rw [List.length_append, List.length_singleton]; omega),
      List.getElem?_eq_none behind.le]
    simp [behind.ne']

theorem Built.lt_length (found : dirs[k]? = some idx) : k < dirs.length :=
  (List.getElem?_eq_some_iff.mp found).1

/-- Where the words of the structure and of the tables lie. -/
theorem LinkSymbols.TablesBehind.tableAt_aligned (behind : sym.TablesBehind) (k : ℕ) :
    sym.tableAt k % pageSize = 0 := by
  have aligned := behind.aligned
  unfold LinkSymbols.tableAt
  rw [Nat.add_mul_mod_self_right]
  exact aligned

theorem LinkSymbols.tableAt_succ (sym : LinkSymbols) (k : ℕ) :
    sym.tableAt (k + 1) = sym.tableAt k + pageSize := by
  rw [LinkSymbols.tableAt, LinkSymbols.tableAt, Nat.add_mul, Nat.one_mul, Nat.add_assoc]

/-- With room for one more table, `init_page_next_pma` has not wrapped around. -/
theorem Built.nextPma_eq (built : Built sym dirs map s)
    (fits : sym.tableAt (dirs.length + 1) ≤ 2 ^ 32) : s.nextPma = sym.tableAt dirs.length := by
  rw [sym.tableAt_succ, pageSize] at fits
  rw [built.nextPma]
  exact Nat.mod_eq_of_lt (by omega)

/-- **A new table** adds its region and maps nothing. -/
theorem Built.tableMade (built : Built sym dirs map s) (behind : sym.TablesBehind)
    (small : vma >>> 22 < pageEntries) (fresh : vma >>> 22 ∉ dirs)
    (fits : sym.tableAt (dirs.length + 1) ≤ 2 ^ 32) :
    Built sym (dirs ++ [vma >>> 22]) map (s.tableMade sym vma) := by
  generalize region : vma >>> 22 = new at *
  have above := behind.behind
  have offset := built.offset
  have succ := sym.tableAt_succ dirs.length
  have atNext := built.nextPma_eq fits
  have next : sym.tableAt (dirs.length + 1) = s.nextPma + pageSize := by
    rw [succ, atNext]
  have low : sym.kernelEndPma ≤ s.nextPma := by
    rw [atNext]
    exact Nat.le_add_right _ _
  rw [next] at fits
  obtain ⟨cleared, others⟩ := clearEntry_upto s.nextPma (pageSize / 8) s.mem
    (by unfold pageSize at *; omega)
  generalize mems : Loop.upto (pageSize / 8) (clearEntry s.nextPma) s.mem = mem at *
  have memEq : (s.tableMade sym vma).mem = Function.update (Function.update mem
      (sym.pageTableLookup new) s.tableVmaOffset)
      (sym.pageDir new) (s.nextPma ||| pagePublic ||| pageWrite ||| pagePresent) := by
    rw [← mems, ← region]
    rfl
  have kept : ∀ a, a ≠ sym.pageDir new → a ≠ sym.pageTableLookup new →
      a < s.nextPma ∨ s.nextPma + pageSize ≤ a → (s.tableMade sym vma).mem a = s.mem a :=
    fun a notDir notLookup outside => by
      rw [memEq, Function.update_of_ne notDir, Function.update_of_ne notLookup]
      exact others a (by unfold pageSize at *; omega)
  have keptDir : ∀ i < pageEntries, i ≠ new →
      (s.tableMade sym vma).mem (sym.pageDir i) = s.mem (sym.pageDir i) := fun i _ differ =>
    kept _ (by unfold LinkSymbols.pageDir; omega)
      (by unfold LinkSymbols.pageDir LinkSymbols.pageTableLookup pageEntries pageSize at *; omega)
      (by unfold LinkSymbols.pageDir pageEntries pageSize at *; omega)
  have keptLookup : ∀ i < pageEntries, i ≠ new →
      (s.tableMade sym vma).mem (sym.pageTableLookup i) = s.mem (sym.pageTableLookup i) :=
    fun i _ differ =>
      kept _ (by unfold LinkSymbols.pageDir LinkSymbols.pageTableLookup pageEntries pageSize at *
                 omega)
        (by unfold LinkSymbols.pageTableLookup; omega)
        (by unfold LinkSymbols.pageTableLookup pageEntries pageSize at *; omega)
  have old : ∀ {k i}, dirs[k]? = some i → i < pageEntries ∧ i ≠ new := fun found =>
    ⟨built.below _ (List.mem_of_getElem? found),
      fun same => fresh (same ▸ List.mem_of_getElem? found)⟩
  refine
    { nodup := List.nodup_append.mpr ⟨built.nodup, List.nodup_singleton _,
        fun i member j last same => fresh (List.mem_singleton.mp last ▸ same ▸ member)⟩
      below := fun i member => (List.mem_append.mp member).elim (built.below i) fun last =>
        List.mem_singleton.mp last ▸ small
      entries := built.entries
      covered := fun page outside => built.covered page fun member =>
        outside (List.mem_append_left _ member)
      dir := fun k i found => ?_
      lookup := fun k i found => ?_
      table := fun k i found j inside => ?_
      noDir := fun i bound outside => ?_
      noLookup := fun i bound outside => ?_
      fits := ?_
      nextPma := ?_
      offset := ?_ }
  · rcases getElem?_snoc.mp found with found | ⟨rfl, rfl⟩
    · rw [keptDir i (old found).1 (old found).2]
      exact built.dir k i found
    · rw [memEq, Function.update_self, atNext, tableFlags, Nat.or_assoc, Nat.or_assoc, Nat.or_assoc]
  · rcases getElem?_snoc.mp found with found | ⟨rfl, rfl⟩
    · rw [keptLookup i (old found).1 (old found).2]
      exact built.lookup k i found
    · rw [memEq, Function.update_of_ne, Function.update_self, offset]
      unfold LinkSymbols.pageDir LinkSymbols.pageTableLookup pageEntries pageSize at *
      omega
  · have apart : sym.tableAt k + 4 * j ≠ sym.pageDir new ∧
        sym.tableAt k + 4 * j ≠ sym.pageTableLookup new := by
      unfold LinkSymbols.tableAt LinkSymbols.pageDir LinkSymbols.pageTableLookup pageEntries
        pageSize at *
      omega
    rcases getElem?_snoc.mp found with found | ⟨rfl, rfl⟩
    · have before := Built.lt_length found
      rw [kept _ apart.1 apart.2 (Or.inl ?_)]
      · exact built.table k i found j inside
      · rw [atNext]
        unfold LinkSymbols.tableAt pageEntries pageSize at *
        omega
    · have unmapped : map (new * pageEntries + j) = none := built.covered _ (by
        rw [Nat.mul_comm, Nat.mul_add_div (by decide), Nat.div_eq_of_lt inside]
        exact fresh)
      rw [unmapped, memEq, Function.update_of_ne apart.1, Function.update_of_ne apart.2, ← atNext]
      exact cleared j (by unfold pageEntries pageSize at *; omega)
  · rw [List.mem_append, List.mem_singleton, not_or] at outside
    rw [keptDir i bound outside.2]
    exact built.noDir i bound outside.1
  · rw [List.mem_append, List.mem_singleton, not_or] at outside
    rw [keptLookup i bound outside.2]
    exact built.noLookup i bound outside.1
  · rw [List.length_append, List.length_singleton, next]
    exact fits
  · rw [List.length_append, List.length_singleton, next]
    unfold InitState.tableMade Word32.add
    rfl
  · rw [List.length_append, List.length_singleton]
    unfold InitState.tableMade
    dsimp only
    rw [offset, Word32.add_eq, Nat.add_mul (_ + 1), Nat.one_mul]
    rw [atNext] at fits
    unfold LinkSymbols.tableAt pageSize at *
    omega

/-- **A new entry** maps its page and adds no table. -/
theorem Built.entrySet (built : Built sym dirs map s) (behind : sym.TablesBehind)
    (found : dirs[k]? = some idx) (small : j < pageEntries) (entry : IsEntry pma flags) :
    Built sym dirs (Function.update map (idx * pageEntries + j) (some (pma, flags)))
      (s.entrySet (sym.tableAt k + 4 * j) (pma ||| flags)) := by
  have above := behind.behind
  have number : (idx * pageEntries + j) / pageEntries = idx := by
    rw [Nat.mul_comm, Nat.mul_add_div (by decide), Nat.div_eq_of_lt small, Nat.add_zero]
  have kept : ∀ a, a ≠ sym.tableAt k + 4 * j →
      (s.entrySet (sym.tableAt k + 4 * j) (pma ||| flags)).mem a = s.mem a := fun a differ =>
    Function.update_of_ne differ _ _
  have apart : ∀ i < pageEntries, sym.pageDir i ≠ sym.tableAt k + 4 * j ∧
      sym.pageTableLookup i ≠ sym.tableAt k + 4 * j := fun i bound => by
    unfold LinkSymbols.tableAt LinkSymbols.pageDir LinkSymbols.pageTableLookup pageEntries
      pageSize at *
    omega
  refine
    { nodup := built.nodup
      below := built.below
      entries := fun page pma' flags' mapped => ?_
      covered := fun page outside => ?_
      dir := fun k' i found' => ?_
      lookup := fun k' i found' => ?_
      table := fun k' i found' j' inside => ?_
      noDir := fun i bound outside => ?_
      noLookup := fun i bound outside => ?_
      fits := built.fits
      nextPma := built.nextPma
      offset := built.offset }
  · by_cases here : page = idx * pageEntries + j
    · rw [here, Function.update_self] at mapped
      cases mapped
      exact entry
    · rw [Function.update_of_ne here] at mapped
      exact built.entries page pma' flags' mapped
  · rw [Function.update_of_ne]
    · exact built.covered page outside
    · rintro rfl
      rw [number] at outside
      exact outside (List.mem_of_getElem? found)
  · rw [kept _ (apart i (built.below i (List.mem_of_getElem? found'))).1]
    exact built.dir k' i found'
  · rw [kept _ (apart i (built.below i (List.mem_of_getElem? found'))).2]
    exact built.lookup k' i found'
  · by_cases here : i = idx ∧ j' = j
    · obtain ⟨rfl, rfl⟩ := here
      have same : k' = k := (List.Nodup.getElem_inj_iff built.nodup).mp
        ((List.getElem?_eq_some_iff.mp found').2.trans (List.getElem?_eq_some_iff.mp found).2.symm)
      rw [same, Function.update_self]
      exact Function.update_self _ _ _
    · have page : i * pageEntries + j' ≠ idx * pageEntries + j := by
        intro same
        unfold pageEntries at *
        omega
      rw [Function.update_of_ne page, kept]
      · exact built.table k' i found' j' inside
      · -- Different tables, or different words of one table.
        intro same
        have table : k' = k := by
          unfold LinkSymbols.tableAt pageEntries pageSize at *
          omega
        subst table
        have idxEq : i = idx := Option.some.inj (found'.symm.trans found)
        exact here ⟨idxEq, by omega⟩
  · rw [kept _ (apart i bound).1]
    exact built.noDir i bound outside
  · rw [kept _ (apart i bound).2]
    exact built.noLookup i bound outside

/-- The directory entry of the `k`th table. -/
theorem Built.dirEntry (built : Built sym dirs map s) (behind : sym.TablesBehind)
    (found : dirs[k]? = some idx) : IsEntry (sym.tableAt k) tableFlags := by
  have before := Built.lt_length found
  have fits := built.fits
  refine ⟨behind.tableAt_aligned k, ?_, by decide, by decide⟩
  unfold LinkSymbols.tableAt pageSize at *
  omega

/-- **`init_page_map` of a page that is not mapped.** -/
theorem Built.mapped (built : Built sym dirs map s) (behind : sym.TablesBehind)
    (small : page < pageEntries * pageEntries) (fresh : map page = none)
    (entry : IsEntry pma flags)
    (room : page / pageEntries ∉ dirs → sym.tableAt (dirs.length + 1) ≤ 2 ^ 32) :
    ∃ t dirs', initPageMap sym (page * pageSize) pma flags s = .ok ((), t) ∧
      Built sym dirs' (Function.update map page (some (pma, flags))) t ∧ dirs <+: dirs' ∧
      (∀ idx ∈ dirs', idx ∈ dirs ∨ idx = page / pageEntries) ∧
      t.maps = t.mem :: s.maps ∧ t.nextVma = s.nextVma := by
  have number : page * pageSize / pageSize = page := Nat.mul_div_cancel _ (by decide)
  have dirIdx : (page * pageSize) >>> 22 = page / pageEntries :=
    (pageGetDirIdx_eq _).trans (by rw [number])
  have tableIdx : (page * pageSize) >>> 12 &&& 0x3ff = page % pageEntries :=
    (pageGetTableIdx_eq _).trans (by rw [number])
  have split : page / pageEntries * pageEntries + page % pageEntries = page :=
    Nat.div_add_mod' page pageEntries
  have inTable : page % pageEntries < pageEntries := Nat.mod_lt _ (by decide)
  have bound : page / pageEntries < pageEntries := Nat.div_lt_of_lt_mul small
  by_cases known : page / pageEntries ∈ dirs
  · obtain ⟨k, found⟩ := List.mem_iff_getElem?.mp known
    have dir := built.dir k _ found
    have table := built.table k _ found _ inTable
    have dirEntry := built.dirEntry behind found
    rw [split, fresh] at table
    have word : s.mem (sym.tableAt k + 4 * (page % pageEntries)) &&& 0xfff ||| pma = pma := by
      rw [table]
      exact Nat.zero_or pma
    have address : Word32.add (entryFrame (s.mem (sym.pageDir ((page * pageSize) >>> 22))))
        (4 * ((page * pageSize) >>> 12 &&& 0x3ff)) =
        sym.tableAt k + 4 * (page % pageEntries) := by
      rw [dirIdx, tableIdx, dir, dirEntry.frame_eq]
      refine Word32.add_eq ?_
      have before := Built.lt_length found
      have fits := built.fits
      unfold LinkSymbols.tableAt pageEntries pageSize at *
      omega
    have present : s.mem (sym.pageDir ((page * pageSize) >>> 22)) &&& pagePresent ≠ 0 := by
      rw [dirIdx, dir]
      exact of_decide_eq_true dirEntry.present_eq
    refine ⟨_, dirs, initPageMap_of_present present address, ?_, List.prefix_refl _,
      fun idx => Or.inl, rfl, rfl⟩
    rw [word]
    have written := built.entrySet behind found inTable entry
    rw [split] at written
    exact written
  · have inDir : (page * pageSize) >>> 22 < pageEntries := by
      rw [dirIdx]
      exact bound
    have made := built.tableMade behind inDir (by rw [dirIdx]; exact known) (room known)
    have fits := room known
    have succ := sym.tableAt_succ dirs.length
    have next := built.nextPma_eq fits
    have absent : s.mem (sym.pageDir ((page * pageSize) >>> 22)) &&& pagePresent = 0 := by
      rw [dirIdx, built.noDir _ bound known]
      rfl
    have aligned : align s.nextPma pageSize = s.nextPma := by
      have multiple : s.nextPma % 2 ^ 12 = 0 := next ▸ behind.tableAt_aligned _
      have word : s.nextPma < 2 ^ 32 := by
        rw [next]
        unfold pageSize at succ
        omega
      have rounded := Word32.roundUp_of_mod_eq_zero multiple
      have fit : Word32.roundUp 12 s.nextPma < 2 ^ 32 := by
        rw [rounded]
        exact word
      exact (align_eq_roundUp (by decide) fit word).trans rounded
    have address : Word32.add s.nextPma (4 * ((page * pageSize) >>> 12 &&& 0x3ff)) =
        sym.tableAt dirs.length + 4 * (page % pageEntries) := by
      rw [tableIdx, next]
      refine Word32.add_eq ?_
      unfold pageEntries pageSize at *
      omega
    rw [dirIdx] at made
    refine ⟨_, dirs ++ [page / pageEntries], initPageMap_of_absent absent aligned, ?_,
      List.prefix_append _ _, fun idx member => ?_, rfl, rfl⟩
    · rw [address]
      have found : (dirs ++ [page / pageEntries])[dirs.length]? = some (page / pageEntries) :=
        getElem?_snoc.mpr (Or.inr ⟨rfl, rfl⟩)
      have written := made.entrySet behind found inTable entry
      rw [split] at written
      exact written
    · exact (List.mem_append.mp member).imp_right List.mem_singleton.mp

/-- **What the processor finds is the map.** -/
theorem Built.walk_eq (built : Built sym dirs map s) (behind : sym.TablesBehind)
    (word : vma < 2 ^ 32) :
    walk s.mem sym.initPageStruct vma =
      (map (vma / pageSize)).map fun entry => (entry.1 + vma % pageSize, entry.2) := by
  have dirIdx : vma >>> 22 = vma / pageSize / pageEntries := pageGetDirIdx_eq vma
  have tableIdx : vma >>> 12 &&& 0x3ff = vma / pageSize % pageEntries := pageGetTableIdx_eq vma
  have split : vma / pageSize / pageEntries * pageEntries + vma / pageSize % pageEntries =
      vma / pageSize := Nat.div_add_mod' _ _
  have inTable : vma / pageSize % pageEntries < pageEntries := Nat.mod_lt _ (by decide)
  have bound : vma / pageSize / pageEntries < pageEntries := by
    unfold pageSize pageEntries
    omega
  unfold walk
  rw [dirIdx, tableIdx]
  dsimp only
  by_cases known : vma / pageSize / pageEntries ∈ dirs
  · obtain ⟨k, found⟩ := List.mem_iff_getElem?.mp known
    have dirEntry := built.dirEntry behind found
    have dir : s.mem (sym.initPageStruct + 4 * (vma / pageSize / pageEntries)) =
        sym.tableAt k ||| tableFlags := built.dir k _ found
    have table := built.table k _ found _ inTable
    rw [split] at table
    rw [dir, if_pos dirEntry.present_eq, dirEntry.frame_eq, table]
    cases mapping : map (vma / pageSize) with
    | none => rfl
    | some entry =>
        obtain ⟨pma, flags⟩ := entry
        have entry := built.entries _ pma flags mapping
        rw [entryWord, if_pos entry.present_eq, entry.frame_eq, entry.flags_eq]
        rfl
  · have dir : s.mem (sym.initPageStruct + 4 * (vma / pageSize / pageEntries)) = 0 :=
      built.noDir _ bound known
    rw [dir, built.covered _ known]
    rfl

end Steps

end TrashOS
