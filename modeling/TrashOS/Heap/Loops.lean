import TrashOS.Heap.Pages
import Mathlib.Data.List.Range

/-!
# The two loops over pages

`alloc` maps the pages from the old end of the heap upwards, `free` releases them
from the end downwards.  Each loop is compared with the program that does its
body once for each page of a list (`mapEach`, `freeEach`), so what is proved
about termination and about the pages visited holds for every page supplier and
every `page_free`.

The loop of `free` is always right, since a block does not start on page zero
before its own descriptor.  The loop of `alloc` counts up to a bound it may not be
able to pass: no page starts behind `2 ^ 32 - PAGE_SIZE`, so a bound above that is
never reached and the address wraps to zero (`allocMapPages_never_returns`).
-/

namespace TrashOS

variable {π : Type} [PageLayer π]

/-! ## Visiting the pages of a list -/

/-- The body of the loop of `alloc`, once for each page. -/
def mapEach (getPagePma : KM π ℕ) : List ℕ → KM π Unit
  | [] => pure ()
  | page :: pages => do
      let pagePma ← getPagePma
      pageSetEntry page (pagePma ||| pageWrite ||| pagePresent)
      mapEach getPagePma pages

/-- The body of the loop of `free`, once for each page. -/
def freeEach {π : Type} (pageFree : ℕ → KM π Unit) : List ℕ → KM π Unit
  | [] => pure ()
  | page :: pages => do
      record (.pageFree page)
      pageFree page
      freeEach pageFree pages

/-- The mapping loop of `alloc` on a heap that ended at `oldEnd`. -/
def mappingLoop (getPagePma : KM π ℕ) (oldEnd bytes fuel : ℕ) : KM π Unit :=
  allocMapPages getPagePma (Word32.add (Word32.add oldEnd bytes) chunkDescSize) fuel
    (align oldEnd pageSize)

/-- The release loop of `free` on a block at `vma` at the end of the heap. -/
def releaseLoop {π : Type} (pageFree : ℕ → KM π Unit) (heapEnd vma fuel : ℕ) : KM π Unit :=
  freePages pageFree vma fuel (heapEnd &&& Word32.not 0xfff)

/-- The mapping loop terminates and maps each page start from the rounded old end
up to the new end once, in increasing order. -/
def MapsEachPage (oldEnd bytes : ℕ) : Prop :=
  ∃ pages : List ℕ, pages.Pairwise (· < ·) ∧
    (∀ p, p ∈ pages ↔
      p % pageSize = 0 ∧ align oldEnd pageSize ≤ p ∧ p < oldEnd + bytes + chunkDescSize) ∧
    ∀ (π : Type) [PageLayer π] (getPagePma : KM π ℕ),
      ∃ fuel, mappingLoop getPagePma oldEnd bytes fuel = mapEach getPagePma pages

/-- The release loop terminates and visits each page start from the block up to
the page of the end once. -/
def ReleasesEachPage (heapEnd vma : ℕ) : Prop :=
  ∃ pages : List ℕ, pages.Pairwise (· > ·) ∧
    (∀ p, p ∈ pages ↔ p % pageSize = 0 ∧ vma ≤ p ∧ p ≤ heapEnd &&& Word32.not 0xfff) ∧
    ∀ (π : Type) (pageFree : ℕ → KM π Unit),
      ∃ fuel, releaseLoop pageFree heapEnd vma fuel = freeEach pageFree pages

/-! ## Upwards -/

/-- One turn of the loop. -/
theorem allocMapPages_succ (getPagePma : KM π ℕ) (bound fuel page : ℕ) :
    allocMapPages getPagePma bound (fuel + 1) page =
      if page < bound then do
        let pagePma ← getPagePma
        pageSetEntry page (pagePma ||| pageWrite ||| pagePresent)
        allocMapPages getPagePma bound fuel (Word32.add page pageSize)
      else pure () := rfl

/-- The loop over `n` pages, none of which starts behind the last page but one. -/
theorem allocMapPages_eq_mapEach (getPagePma : KM π ℕ) {bound : ℕ} :
    ∀ {n page fuel : ℕ}, n < fuel → bound ≤ page + pageSize * n →
      (∀ k < n, page + pageSize * k < bound) → page + pageSize * n < 2 ^ 32 →
      allocMapPages getPagePma bound fuel page =
        mapEach getPagePma (List.range' page n pageSize)
  | _, _, 0, enough, _, _, _ => absurd enough (Nat.not_lt_zero _)
  | 0, page, fuel + 1, _, passed, _, _ => by
      rw [allocMapPages_succ, if_neg (by omega), List.range'_zero]
      rfl
  | n + 1, page, fuel + 1, enough, passed, below, fits => by
      have more : page < bound := by simpa using below 0 n.succ_pos
      have next : Word32.add page pageSize = page + pageSize := Word32.add_eq (by
        rw [Nat.mul_add] at fits
        omega)
      have rest : allocMapPages getPagePma bound fuel (page + pageSize) =
          mapEach getPagePma (List.range' (page + pageSize) n pageSize) := by
        refine allocMapPages_eq_mapEach getPagePma (by omega) ?_ (fun k hk => ?_) ?_
        · rw [Nat.mul_add] at passed
          omega
        · have := below (k + 1) (by omega)
          rw [Nat.mul_add] at this
          omega
        · rw [Nat.mul_add] at fits
          omega
      rw [allocMapPages_succ, if_pos more, next, rest, List.range'_succ]
      rfl

/-- **A bound behind the start of the last page is never reached**, whatever the
supplier does. -/
theorem allocMapPages_never_returns (getPagePma : KM π ℕ) {bound : ℕ}
    (high : 2 ^ 32 - pageSize < bound) :
    ∀ (fuel : ℕ) {page : ℕ} {s s' : Sys π} {u : Unit}, page % pageSize = 0 → page < 2 ^ 32 →
      allocMapPages getPagePma bound fuel page s ≠ .ok (u, s')
  | 0, _, _, _, _, _, _ => by
      intro returned
      cases returned
  | fuel + 1, page, s, s', u, aligned, word => by
      intro returned
      unfold pageSize at high aligned
      -- the last page start is `2 ^ 32 - PAGE_SIZE`, which lies below the bound
      have more : page < bound := by omega
      rw [allocMapPages_succ, if_pos more] at returned
      obtain ⟨pma, s₁, -, returned⟩ := Prog.bind_eq_ok.mp returned
      obtain ⟨u₂, s₂, -, returned⟩ := Prog.bind_eq_ok.mp returned
      refine allocMapPages_never_returns getPagePma (by unfold pageSize; omega) fuel ?_
        (Word32.add_lt _ _) returned
      unfold Word32.add pageSize
      omega

/-- How many pages start from `page` on before `bound`. -/
def pagesUpTo (page bound : ℕ) : ℕ := (bound - page + (pageSize - 1)) / pageSize

/-- The page starts from `lo` up to `hi`, in increasing order. -/
def startsBetween (lo hi : ℕ) : List ℕ :=
  List.range' (alignedEnd lo pageSize) (pagesUpTo (alignedEnd lo pageSize) hi) pageSize

section Up

variable {lo hi oldEnd bytes : ℕ}

theorem startsBetween_pairwise (lo hi : ℕ) : (startsBetween lo hi).Pairwise (· < ·) :=
  List.pairwise_lt_range' pageSize (by decide)

theorem mem_startsBetween {p : ℕ} :
    p ∈ startsBetween lo hi ↔ p % pageSize = 0 ∧ lo ≤ p ∧ p < hi := by
  unfold startsBetween
  rw [List.mem_range']
  unfold pagesUpTo alignedEnd pageSize
  constructor
  · rintro ⟨k, inside, rfl⟩
    omega
  · rintro ⟨multiple, lower, upper⟩
    refine ⟨(p - (lo + 4095) / 4096 * 4096) / 4096, ?_, ?_⟩ <;> omega

/-- Lists of page starts with the same members. -/
theorem perm_startsBetween {pages : List ℕ} (nodup : pages.Nodup)
    (same : ∀ p, p ∈ pages ↔ p % pageSize = 0 ∧ lo ≤ p ∧ p < hi) :
    pages.Perm (startsBetween lo hi) := by
  refine (List.perm_ext_iff_of_nodup nodup ?_).mpr fun p => ?_
  · exact (startsBetween_pairwise lo hi).imp ne_of_lt
  · rw [same, mem_startsBetween]

/-- Page starts lie on different pages. -/
theorem startsBetween_pages_nodup (lo hi : ℕ) :
    ((startsBetween lo hi).map fun page => page / pageSize).Nodup := by
  refine List.Nodup.map_on (fun p memP q memQ same => ?_)
    ((startsBetween_pairwise lo hi).imp fun lt => Nat.ne_of_lt lt)
  have startP := (mem_startsBetween.mp memP).1
  have startQ := (mem_startsBetween.mp memQ).1
  rw [← Nat.div_add_mod p pageSize, ← Nat.div_add_mod q pageSize, startP, startQ, same]

theorem length_startsBetween_lt (word : hi ≤ 2 ^ 32) :
    (startsBetween lo hi).length < pageFuel := by
  unfold startsBetween
  rw [List.length_range']
  unfold pagesUpTo pageFuel pageSize
  omega

/-- Rounding up to a page does not wrap below the last page. -/
theorem align_page_eq (low : lo ≤ 2 ^ 32 - pageSize) :
    align lo pageSize = alignedEnd lo pageSize := by
  unfold pageSize at low
  rw [align_page (by omega)]
  unfold alignedEnd pageSize
  split <;> omega

/-- The loop over the pages up to a bound that does not lie behind the start of the
last page. -/
theorem allocMapPages_eq (getPagePma : KM π ℕ) (low : lo ≤ hi) (fits : hi ≤ 2 ^ 32 - pageSize)
    {fuel : ℕ} (enough : (startsBetween lo hi).length < fuel) :
    allocMapPages getPagePma hi fuel (align lo pageSize) =
      mapEach getPagePma (startsBetween lo hi) := by
  rw [align_page_eq (low.trans fits)]
  unfold startsBetween at enough ⊢
  rw [List.length_range'] at enough
  unfold pagesUpTo at enough ⊢
  unfold pageSize alignedEnd at *
  refine allocMapPages_eq_mapEach getPagePma enough ?_ (fun k hk => ?_) ?_ <;>
    unfold pageSize <;> omega

/-- The pages the loop of `alloc` maps, as long as the new end does not lie behind
the start of the last page. -/
theorem mappingLoop_eq (fits : oldEnd + bytes + chunkDescSize ≤ 2 ^ 32 - pageSize)
    (getPagePma : KM π ℕ) {fuel : ℕ}
    (enough : (startsBetween oldEnd (oldEnd + bytes + chunkDescSize)).length < fuel) :
    mappingLoop getPagePma oldEnd bytes fuel =
      mapEach getPagePma (startsBetween oldEnd (oldEnd + bytes + chunkDescSize)) := by
  have word : oldEnd + bytes + chunkDescSize < 2 ^ 32 := lt_of_le_of_lt fits (by decide)
  unfold mappingLoop
  rw [Word32.add_eq (a := oldEnd) (by omega), Word32.add_eq word]
  exact allocMapPages_eq getPagePma (by omega) fits enough

theorem mapsEachPage_of_le (fits : oldEnd + bytes + chunkDescSize ≤ 2 ^ 32 - pageSize) :
    MapsEachPage oldEnd bytes := by
  refine ⟨_, startsBetween_pairwise _ _, fun p => ?_, fun π _ getPagePma =>
    ⟨_, mappingLoop_eq fits getPagePma (Nat.lt_succ_self _)⟩⟩
  rw [mem_startsBetween, align_page_eq (by unfold chunkDescSize at fits; omega)]
  unfold alignedEnd pageSize
  constructor
  · rintro ⟨multiple, lower, upper⟩
    omega
  · rintro ⟨multiple, lower, upper⟩
    omega

/-- Mapping each page of a list returns when the supplier and the page layer do. -/
theorem mapEach_returns (getPagePma : KM π ℕ)
    (supplies : ∀ s, ∃ pma s', getPagePma s = .ok (pma, s'))
    (sets : ∀ vma entry (s : Sys π), ∃ s', pageSetEntry vma entry s = .ok ((), s')) :
    ∀ (pages : List ℕ) (s : Sys π), ∃ s', mapEach getPagePma pages s = .ok ((), s')
  | [], s => ⟨s, rfl⟩
  | page :: pages, s => by
      obtain ⟨pma, s₁, first⟩ := supplies s
      obtain ⟨s₂, second⟩ := sets page (pma ||| pageWrite ||| pagePresent) s₁
      obtain ⟨s', rest⟩ := mapEach_returns getPagePma supplies sets pages s₂
      exact ⟨s', (Prog.bind_of_ok first).trans ((Prog.bind_of_ok second).trans rest)⟩

/-- With a bound behind the start of the last page the loop does not even end. -/
theorem not_mapsEachPage (word : oldEnd + bytes + chunkDescSize < 2 ^ 32)
    (high : 2 ^ 32 - pageSize < oldEnd + bytes + chunkDescSize) : ¬ MapsEachPage oldEnd bytes := by
  rintro ⟨pages, -, -, loop⟩
  obtain ⟨fuel, same⟩ := loop AllMapped (pure 0)
  obtain ⟨s', returned⟩ := mapEach_returns (pure 0 : KM AllMapped ℕ) (fun s => ⟨0, s, rfl⟩)
    (fun vma entry s => ⟨_, rfl⟩) pages blank
  rw [← same, mappingLoop, Word32.add_eq (a := oldEnd) (by omega), Word32.add_eq word] at returned
  exact allocMapPages_never_returns _ high fuel (align_page_mod (by omega)) (Word32.add_lt _ _)
    returned

end Up

/-! ## Downwards -/

/-- One turn of the loop. -/
theorem freePages_succ {π : Type} (pageFree : ℕ → KM π Unit) (vma fuel page : ℕ) :
    freePages pageFree vma (fuel + 1) page =
      if page ≥ vma then do
        record (.pageFree page)
        pageFree page
        freePages pageFree vma fuel (Word32.sub page pageSize)
      else pure () := rfl

/-- The loop over `n` pages down to `low`. -/
theorem freePages_eq_freeEach {π : Type} (pageFree : ℕ → KM π Unit) {vma low : ℕ}
    (lower : vma ≤ low + pageSize) (upper : low < vma) :
    ∀ {n fuel : ℕ}, n < fuel → low + pageSize * n < 2 ^ 32 →
      freePages pageFree vma fuel (low + pageSize * n) =
        freeEach pageFree (List.range' (low + pageSize) n pageSize).reverse
  | _, 0, enough, _ => absurd enough (Nat.not_lt_zero _)
  | 0, fuel + 1, _, _ => by
      rw [freePages_succ, Nat.mul_zero, if_neg (by omega), List.range'_zero]
      rfl
  | n + 1, fuel + 1, enough, word => by
      rw [Nat.mul_add, Nat.mul_one] at word
      have prev : Word32.sub (low + pageSize * (n + 1)) pageSize = low + pageSize * n := by
        rw [Nat.mul_add, Nat.mul_one, Word32.sub_eq (by omega) (by omega)]
        omega
      have rest := freePages_eq_freeEach pageFree lower upper
        (show n < fuel by omega) (by omega)
      rw [freePages_succ, if_pos (by rw [Nat.mul_add]; omega), prev, rest, List.range'_concat,
        List.reverse_append, show low + pageSize + pageSize * n = low + pageSize * (n + 1) by
          rw [Nat.mul_add]; omega]
      rfl

/-- The pages the loop visits: those of the block, from the page of the end down.
The fuel of the model suffices. -/
theorem releaseLoop_eq {heapEnd vma : ℕ} (word : heapEnd < 2 ^ 32) (pos : 0 < vma) :
    ∃ pages : List ℕ, pages.Pairwise (· > ·) ∧
      (∀ p, p ∈ pages ↔ p % pageSize = 0 ∧ vma ≤ p ∧ p ≤ heapEnd &&& Word32.not 0xfff) ∧
      pages.length < pageFuel ∧ ∀ (π : Type) (pageFree : ℕ → KM π Unit) (fuel : ℕ),
        pages.length < fuel → releaseLoop pageFree heapEnd vma fuel = freeEach pageFree pages := by
  have start : heapEnd &&& Word32.not 0xfff = heapEnd / 4096 * 4096 :=
    Word32.and_not_low (k := 12) (by decide) word
  -- the last turn finds the page of `vma - 1`
  have lower : vma ≤ (vma - 1) / 4096 * 4096 + 4096 := by omega
  have upper : (vma - 1) / 4096 * 4096 < vma := by omega
  unfold releaseLoop
  rw [start]
  by_cases inside : vma ≤ heapEnd / 4096 * 4096
  · have order : (vma - 1) / 4096 < heapEnd / 4096 := Nat.div_lt_of_lt_mul (by omega)
    obtain ⟨low, eqLow⟩ : ∃ low, (vma - 1) / 4096 * 4096 = low := ⟨_, rfl⟩
    obtain ⟨n, size⟩ := Nat.exists_eq_add_of_lt order
    have total : heapEnd / 4096 * 4096 = low + 4096 * (n + 1) := by
      rw [size, ← eqLow]
      ring
    have multipleLow : low % 4096 = 0 := eqLow ▸ Nat.mul_mod_left _ _
    rw [total] at inside
    rw [eqLow] at lower upper
    clear eqLow order size
    refine ⟨(List.range' (low + pageSize) (n + 1) pageSize).reverse, ?_, fun p => ?_, ?_,
      fun π pageFree fuel enough => ?_⟩
    · rw [List.pairwise_reverse]
      exact List.pairwise_lt_range' pageSize (by decide)
    · rw [List.mem_reverse, List.mem_range', total]
      unfold pageSize at *
      constructor
      · rintro ⟨k, below, rfl⟩
        omega
      · rintro ⟨multiple, lower', upper'⟩
        exact ⟨(p - low - 4096) / 4096, by omega, by omega⟩
    · rw [List.length_reverse, List.length_range']
      unfold pageFuel
      omega
    · rw [List.length_reverse, List.length_range'] at enough
      rw [total]
      refine freePages_eq_freeEach pageFree lower upper enough ?_
      unfold pageSize
      omega
  · refine ⟨[], List.Pairwise.nil, fun p => ?_, by decide, fun π pageFree fuel enough => ?_⟩
    · simp only [List.not_mem_nil, false_iff, not_and]
      omega
    · obtain ⟨fuel, rfl⟩ := Nat.exists_eq_succ_of_ne_zero (Nat.ne_of_gt enough)
      rw [freePages_succ, if_neg (by omega)]
      rfl

/-- **The loop of `free` ends** and visits the pages of the block. -/
theorem releasesEachPage {heapEnd vma : ℕ} (word : heapEnd < 2 ^ 32) (pos : 0 < vma) :
    ReleasesEachPage heapEnd vma := by
  obtain ⟨pages, decreasing, exact_, -, loop⟩ := releaseLoop_eq word pos
  exact ⟨pages, decreasing, exact_, fun π pageFree => ⟨_, loop π pageFree _ (Nat.lt_succ_self _)⟩⟩

/-- The pages `free` releases: those that start in the block or right behind it. -/
theorem releaseLoop_pages {heapEnd vma : ℕ} (word : heapEnd < 2 ^ 32) (pos : 0 < vma) :
    ∃ pages : List ℕ, pages.Perm (startsBetween vma (heapEnd + 1)) ∧
      ∀ (π : Type) (pageFree : ℕ → KM π Unit),
        freePages pageFree vma pageFuel (heapEnd &&& Word32.not 0xfff) =
          freeEach pageFree pages := by
  obtain ⟨pages, decreasing, exact_, enough, loop⟩ := releaseLoop_eq word pos
  have top : heapEnd &&& Word32.not 0xfff = heapEnd / 4096 * 4096 :=
    Word32.and_not_low (k := 12) (by decide) word
  refine ⟨pages, perm_startsBetween (decreasing.imp fun gt => ne_of_gt gt) fun p => ?_,
    fun π pageFree => loop π pageFree pageFuel enough⟩
  rw [exact_, top]
  unfold pageSize
  constructor
  · rintro ⟨multiple, lower, upper⟩
    exact ⟨multiple, lower, by omega⟩
  · rintro ⟨multiple, lower, upper⟩
    exact ⟨multiple, lower, by omega⟩

/-- **The page loops of the allocator are exact if and only if the new end does not lie behind the
start of the last page.**  The loop of `alloc` counts up to the new end: when that lies inside the
last page the counter wraps around to zero before it gets there, and the loop never ends.  The
loop of `free` counts down from the page of the old end to the block, and as no block starts at
address zero it stops before it could wrap around. -/
theorem pageLoops_exact_iff {H : Heap} {c : Chunk} (block : c ∈ H.chunks)
    {heapEnd oldEnd bytes : ℕ} (word : heapEnd < 2 ^ 32)
    (newEnd : oldEnd + bytes + chunkDescSize < 2 ^ 32) :
    MapsEachPage oldEnd bytes ∧ ReleasesEachPage heapEnd c.vma ↔
      oldEnd + bytes + chunkDescSize ≤ 2 ^ 32 - pageSize := by
  have pos : 0 < c.vma := by
    have := (H.range block).1
    omega
  constructor
  · rintro ⟨maps, -⟩
    by_contra high
    exact not_mapsEachPage newEnd (by omega) maps
  · intro fits
    exact ⟨mapsEachPage_of_le fits, releasesEachPage word pos⟩

/-- The heap with one used chunk of 24 bytes behind its first descriptor. -/
def oneBlockHeap : Heap where
  first := 0x3000
  chunks := [⟨0x3008, 24, false⟩]
  order := []
  stop := 0x3028
  aligned := by decide
  tiled := by simp
  bound := by decide
  members := by decide
  coalesced := by simp

/-- A heap that grows by a page from `0x3028`, and its block of 24 bytes. -/
theorem pageLoops_exact_of_first_page :
    (⟨0x3008, 24, false⟩ : Chunk) ∈ oneBlockHeap.chunks ∧
      (MapsEachPage 0x3028 0x1000 ∧ ReleasesEachPage 0x4030 0x3008) :=
  ⟨List.mem_singleton.mpr rfl,
    (pageLoops_exact_iff (H := oneBlockHeap) (List.mem_singleton.mpr rfl) (by decide)
      (by decide)).mpr (by decide)⟩

/-- A heap that ends 8 bytes before the last page and is extended by the smallest
block: the new end is `0xFFFFF008`, and the loop never ends. -/
theorem mapping_never_ends_on_last_page :
    ¬ ∀ oldEnd bytes : ℕ, oldEnd + bytes + chunkDescSize < 2 ^ 32 →
      MapsEachPage oldEnd bytes := by
  intro all
  exact not_mapsEachPage (by decide) (by decide) (all 0xFFFFEFF8 8 (by decide))

end TrashOS
