import TrashOS.Heap.Run
import TrashOS.Page.Layer

/-!
# Heap accesses stay on present pages

A heap context over the page tables of `page.c`, with `page_free` as it is there.
The page supplier and the `kmalloc` inside `page_free` work elsewhere
(`Elsewhere`): they leave the context and its words alone, keep the pages of the
heap present, and access words of their own, collected in `foreign`.

* `PagesPresent` — every page that starts between the page of the first
  descriptor and the end of the heap is present.
* `pages_of_run` — it holds after every step of every run, and in every step each
  word accessed lies, at that moment, on a present page or is foreign.

The two loops over pages carry the invariant: the one of `alloc` makes the pages
behind the old end present, the one of `free` unmaps only pages behind the new
end.
-/

namespace TrashOS

/-! ## Pages of a heap -/

/-- The first byte of the page of `a`. -/
def pageStart (a : ℕ) : ℕ := a / pageSize * pageSize

theorem pageStart_le (a : ℕ) : pageStart a ≤ a := Nat.div_mul_le_self a pageSize

theorem pageStart_mod (a : ℕ) : pageStart a % pageSize = 0 := Nat.mul_mod_left _ _

theorem pageStart_div (a : ℕ) : pageStart a / pageSize = a / pageSize :=
  Nat.mul_div_cancel _ (by decide)

theorem pageStart_mono {a b : ℕ} (le : a ≤ b) : pageStart a ≤ pageStart b :=
  Nat.mul_le_mul_right _ (Nat.div_le_div_right le)

/-- A page of the heap: it starts between the page of the first descriptor and
the end. -/
def OwnPage {π : Type} (s : Sys π) (p : ℕ) : Prop :=
  p % pageSize = 0 ∧ pageStart (align s.ctxt.start kmMinAllocSize) ≤ p ∧ p < s.ctxt.heapEnd

/-- The pages that start between the page of `first` and `stop` are present. -/
def PresentBetween (pages : PageTables) (first stop : ℕ) : Prop :=
  ∀ p, p % pageSize = 0 → pageStart first ≤ p → p < stop → PageLayer.mapped pages p = true

/-- **The pages of the heap are present.** -/
def PagesPresent (s : Sys PageTables) : Prop :=
  PresentBetween s.pages (align s.ctxt.start kmMinAllocSize) s.ctxt.heapEnd

/-- Every word accessed between `s` and `s'` was on a present page, or is
foreign. -/
def AccessesMapped {π : Type} (foreign : ℕ → Prop) (s s' : Sys π) : Prop :=
  ∃ es, s'.log = es ++ s.log ∧
    ∀ a mapped, (Event.load a mapped ∈ es ∨ Event.store a mapped ∈ es) →
      mapped = true ∨ foreign a

namespace AccessesMapped

variable {π : Type} {foreign : ℕ → Prop} {s s' s'' : Sys π}

theorem refl (foreign : ℕ → Prop) (s : Sys π) : AccessesMapped foreign s s :=
  ⟨[], rfl, by simp⟩

theorem trans (first : AccessesMapped foreign s s') (second : AccessesMapped foreign s' s'') :
    AccessesMapped foreign s s'' := by
  obtain ⟨es, logEq, mappedIn⟩ := first
  obtain ⟨es', logEq', mappedIn'⟩ := second
  refine ⟨es' ++ es, by rw [logEq', logEq, List.append_assoc], fun a mapped member => ?_⟩
  rw [List.mem_append, List.mem_append, or_or_or_comm] at member
  rcases member with late | early
  · exact mappedIn' a mapped late
  · exact mappedIn a mapped early

/-- Only the log matters. -/
theorem congr {t t' : Sys π} (accesses : AccessesMapped foreign s s') (start : t.log = s.log)
    (final : t'.log = s'.log) : AccessesMapped foreign t t' := by
  obtain ⟨es, logEq, mappedIn⟩ := accesses
  exact ⟨es, by rw [final, logEq, start], mappedIn⟩

end AccessesMapped

variable {foreign : ℕ → Prop} {s s' s'' : Sys PageTables}

/-- A footprint on present pages. -/
theorem Touch.accessesMapped {A : ℕ → Prop} (touch : Touch A s s')
    (present : ∀ a, A a → PageLayer.mapped s.pages a = true) : AccessesMapped foreign s s' := by
  obtain ⟨es, logEq, inA⟩ := touch.log
  refine ⟨es, logEq, fun a mapped member => Or.inl ?_⟩
  rcases member with load | store
  · obtain ⟨b, inside, shape | shape⟩ := inA _ load
    · cases shape
      exact present a inside
    · cases shape
  · obtain ⟨b, inside, shape | shape⟩ := inA _ store
    · cases shape
    · cases shape
      exact present a inside

/-- A word is on a present page when the first byte of its page is. -/
theorem mapped_of_pageStart {pages : PageTables} {a : ℕ}
    (present : PageLayer.mapped pages (pageStart a) = true) : PageLayer.mapped pages a = true := by
  rw [PageTables.mapped_congr (pageStart_div a).symm]
  exact present

theorem PresentBetween.word {pages : PageTables} {first stop : ℕ}
    (present : PresentBetween pages first stop) {a : ℕ} (within : Between first stop a) :
    PageLayer.mapped pages a = true :=
  mapped_of_pageStart (present _ (pageStart_mod a) (pageStart_mono within.1)
    ((pageStart_le a).trans_lt within.2))

/-! ## Computations that work elsewhere -/

/-- Between `s` and `s'` no page of the heap became absent, those in `gone`
apart, and no word of the heap was accessed on an absent page. -/
structure PageCalm (foreign gone : ℕ → Prop) (s s' : Sys PageTables) : Prop where
  keeps : ∀ p, OwnPage s p → ¬ gone p → PageLayer.mapped s.pages p = true →
    PageLayer.mapped s'.pages p = true
  accesses : AccessesMapped foreign s s'

namespace PageCalm

variable {gone : ℕ → Prop}

theorem refl (foreign gone : ℕ → Prop) (s : Sys PageTables) : PageCalm foreign gone s s :=
  ⟨fun _ _ _ present => present, AccessesMapped.refl _ s⟩

theorem trans (first : PageCalm foreign gone s s') (same : s'.ctxt = s.ctxt)
    (second : PageCalm foreign gone s' s'') : PageCalm foreign gone s s'' := by
  refine ⟨fun p own stays present => ?_, first.accesses.trans second.accesses⟩
  refine second.keeps p ?_ stays (first.keeps p own stays present)
  unfold OwnPage at own ⊢
  rwa [same]

end PageCalm

/-- A computation on behalf of another heap. -/
structure Elsewhere (foreign : ℕ → Prop) {α : Type} (m : KM PageTables α) : Prop where
  quiet : Quiet m
  calm : ∀ {s a s'}, m s = .ok (a, s') → PageCalm foreign (fun _ => False) s s'

/-- `kmalloc` on another heap: the node it returns is foreign too. -/
structure NodeSource (foreign : ℕ → Prop) (kmalloc : ℕ → KM PageTables ℕ) : Prop where
  elsewhere : ∀ bytes, Elsewhere foreign (kmalloc bytes)
  node : ∀ {bytes s n s'}, kmalloc bytes s = .ok (n, s') →
    (foreign (pmaField n) ∧ ¬ OwnWord s (pmaField n)) ∧
      foreign (pageNextField n) ∧ ¬ OwnWord s (pageNextField n)

/-! ## The two loops over pages -/

section Loops

variable {v entry : ℕ} {u : Unit}

/-- Writing an entry with the present bit takes no page away. -/
theorem pageSetEntry_calm (foreign : ℕ → Prop) (present : entryPresent entry = true)
    (returned : pageSetEntry v entry s = .ok (u, s')) :
    PageCalm foreign (fun _ => False) s s' ∧
      ∀ p, p / pageSize = v / pageSize → PageLayer.mapped s'.pages p = true := by
  obtain ⟨old, some, rfl⟩ := pageSetEntry_eq_ok.mp returned
  have here : ∀ p, p / pageSize = v / pageSize →
      PageLayer.mapped (s.pages.write v entry) p = true :=
    fun p same => PageTables.mapped_write_same some present same
  refine ⟨⟨fun p _ _ before => ?_, ⟨[.setEntry v entry], rfl, by simp⟩⟩, here⟩
  by_cases same : p / pageSize = v / pageSize
  · exact here p same
  · change PageLayer.mapped (s.pages.write v entry) p = true
    rw [PageTables.mapped_write_other same]
    exact before

/-- **The page loop of `alloc`** makes the pages up to `bound` present. -/
theorem allocMapPages_pages {getPagePma : KM PageTables ℕ}
    (supplier : Elsewhere foreign getPagePma) {bound : ℕ} (fits : bound < 2 ^ 32) :
    ∀ fuel page {s s'}, allocMapPages getPagePma bound fuel page s = .ok (u, s') →
      PageCalm foreign (fun _ => False) s s' ∧
        ∀ p, OwnPage s p → page ≤ p → p < bound → page % pageSize = 0 →
          PageLayer.mapped s'.pages p = true
  | 0, _, s, s', returned => by cases returned
  | fuel + 1, page, s, s', returned => by
      unfold allocMapPages at returned
      split at returned
      next more =>
        obtain ⟨pma, s₁, first, returned⟩ := Prog.bind_eq_ok.mp returned
        obtain ⟨u₂, s₂, second, returned⟩ := Prog.bind_eq_ok.mp returned
        have ctxt₁ : s₁.ctxt = s.ctxt := (supplier.quiet _ _ _ first).ctxt
        have ctxt₂ : s₂.ctxt = s.ctxt :=
          (pageSetEntry_quiet _ _ _ _ _ second).ctxt.trans ctxt₁
        obtain ⟨calm₂, here⟩ := pageSetEntry_calm foreign (entryPresent_or pma) second
        obtain ⟨calm₃, behind⟩ := allocMapPages_pages supplier fits fuel _ returned
        have calm : PageCalm foreign (fun _ => False) s s₂ :=
          (supplier.calm first).trans ctxt₁ calm₂
        refine ⟨calm.trans ctxt₂ calm₃, fun p own from_ below aligned => ?_⟩
        have own₂ : OwnPage s₂ p := by
          unfold OwnPage at own ⊢
          rwa [ctxt₂]
        by_cases same : p / pageSize = page / pageSize
        · exact calm₃.keeps p own₂ id (here p same)
        · -- the next page start does not wrap, since `p` lies at or behind it
          have multiple := own.1
          unfold pageSize at same multiple aligned
          have next : Word32.add page pageSize = page + 4096 := Word32.add_eq (by
            unfold pageSize
            omega)
          refine behind p own₂ ?_ below ?_
          · rw [next]
            omega
          · rw [next]
            unfold pageSize
            omega
      next done =>
        cases returned
        exact ⟨PageCalm.refl _ _ s, fun p _ from_ below _ => absurd below (by omega)⟩

section PageFree

variable {kmalloc : ℕ → KM PageTables ℕ}

/-- `page_free` on behalf of the heap leaves its context alone. -/
theorem pageFreeWith_quiet (source : NodeSource foreign kmalloc) (vma : ℕ) :
    Quiet (pageFreeWith kmalloc vma) := by
  intro s a s' returned
  unfold pageFreeWith at returned
  obtain ⟨node, s₁, first, returned⟩ := Prog.bind_eq_ok.mp returned
  obtain ⟨pma, s₂, second, returned⟩ := Prog.bind_eq_ok.mp returned
  obtain ⟨pages, -, rfl⟩ := onPages_eq_ok.mp second
  obtain ⟨⟨-, offPma⟩, -, offNext⟩ := source.node first
  have calm := (source.elsewhere _).quiet _ _ _ first
  obtain ⟨next, s₃, read, returned⟩ := Prog.bind_eq_ok.mp returned
  cases read
  obtain ⟨_, s₄, storePma, returned⟩ := Prog.bind_eq_ok.mp returned
  cases storePma
  obtain ⟨_, s₅, storeNext, returned⟩ := Prog.bind_eq_ok.mp returned
  cases storeNext
  obtain ⟨_, s₆, unmap, returned⟩ := Prog.bind_eq_ok.mp returned
  obtain ⟨pages', -, rfl⟩ := onPages_eq_ok.mp unmap
  obtain ⟨_, s₇, setList, final⟩ := Prog.bind_eq_ok.mp returned
  cases setList
  cases final
  refine calm.trans ⟨fun a own => ?_, rfl, [.pageRelease pma,
    .store (pageNextField node) (PageLayer.mapped pages (pageNextField node)),
    .store (pmaField node) (PageLayer.mapped pages (pmaField node))], rfl, ?_⟩
  · have own : OwnWord s a := by
      unfold OwnWord at own ⊢
      rwa [← calm.ctxt]
    have notNext : a ≠ pageNextField node := fun same => offNext (same ▸ own)
    have notPma : a ≠ pmaField node := fun same => offPma (same ▸ own)
    change Function.update (Function.update s₁.mem _ _) _ _ a = _
    rw [Function.update_of_ne notNext, Function.update_of_ne notPma]
  · intro a mapped member own
    have own₁ : OwnWord s a := by
      unfold OwnWord at own ⊢
      rwa [← calm.ctxt]
    simp only [List.mem_cons, Event.store.injEq, reduceCtorEq, List.not_mem_nil, or_false,
      false_or] at member
    rcases member with ⟨rfl, -⟩ | ⟨rfl, -⟩
    · exact offNext own₁
    · exact offPma own₁

/-- It takes away the page it is called for and no other. -/
theorem pageFreeWith_calm (source : NodeSource foreign kmalloc) {vma : ℕ}
    (returned : pageFreeWith kmalloc vma s = .ok (u, s')) :
    PageCalm foreign (fun p => p / pageSize = vma / pageSize) s s' := by
  unfold pageFreeWith at returned
  obtain ⟨node, s₁, first, returned⟩ := Prog.bind_eq_ok.mp returned
  obtain ⟨pma, s₂, second, returned⟩ := Prog.bind_eq_ok.mp returned
  obtain ⟨pages, getPma, rfl⟩ := onPages_eq_ok.mp second
  obtain ⟨entry, -, -, rfl⟩ := pageGetPma_eq_ok.mp getPma
  obtain ⟨⟨foreignPma, -⟩, foreignNext, -⟩ := source.node first
  have calm := (source.elsewhere _).calm first
  obtain ⟨next, s₃, read, returned⟩ := Prog.bind_eq_ok.mp returned
  cases read
  obtain ⟨_, s₄, storePma, returned⟩ := Prog.bind_eq_ok.mp returned
  cases storePma
  obtain ⟨_, s₅, storeNext, returned⟩ := Prog.bind_eq_ok.mp returned
  cases storeNext
  obtain ⟨_, s₆, unmap, returned⟩ := Prog.bind_eq_ok.mp returned
  obtain ⟨pages', unmapped, rfl⟩ := onPages_eq_ok.mp unmap
  obtain ⟨old, some, rfl⟩ := pageUnmap_eq_ok.mp unmapped
  obtain ⟨_, s₇, setList, final⟩ := Prog.bind_eq_ok.mp returned
  cases setList
  cases final
  refine ⟨fun p own stays before => ?_, calm.accesses.trans ⟨[.pageRelease pma,
    .store (pageNextField node) (PageLayer.mapped s₁.pages (pageNextField node)),
    .store (pmaField node) (PageLayer.mapped s₁.pages (pmaField node))], rfl, ?_⟩⟩
  · have middle := calm.keeps p own id before
    rw [← PageTables.mapped_write_other stays] at middle
    rw [← middle]
    exact PageTables.mapped_of_table rfl
  · intro a mapped member
    simp only [List.mem_cons, Event.store.injEq, reduceCtorEq, List.not_mem_nil, or_false,
      false_or] at member
    rcases member with ⟨rfl, -⟩ | ⟨rfl, -⟩
    · exact Or.inr foreignNext
    · exact Or.inr foreignPma

/-- **The page loop of `free`** takes away pages at or behind `vma` only. -/
theorem freePages_pages (source : NodeSource foreign kmalloc) {vma : ℕ} (pos : 0 < vma) :
    ∀ fuel page {s s'}, page % pageSize = 0 → page < 2 ^ 32 →
      freePages (pageFreeWith kmalloc) vma fuel page s = .ok (u, s') →
      PageCalm foreign (fun p => vma ≤ p) s s'
  | 0, _, s, s', _, _, returned => by cases returned
  | fuel + 1, page, s, s', aligned, word, returned => by
      unfold freePages at returned
      split at returned
      next more =>
        obtain ⟨u₁, s₁, first, returned⟩ := Prog.bind_eq_ok.mp returned
        cases first
        obtain ⟨u₂, s₂, second, returned⟩ := Prog.bind_eq_ok.mp returned
        have ctxt₂ : s₂.ctxt = s.ctxt := (pageFreeWith_quiet source page _ _ _ second).ctxt
        obtain ⟨keeps, accesses⟩ := pageFreeWith_calm source second
        have record : AccessesMapped foreign s { s with log := .pageFree page :: s.log } :=
          ⟨[.pageFree page], rfl, by simp⟩
        have calm : PageCalm foreign (fun p => vma ≤ p) s s₂ := by
          refine ⟨fun p own stays present => keeps p own ?_ present, record.trans accesses⟩
          have multiple := own.1
          unfold pageSize at aligned multiple ⊢
          omega
        unfold pageSize at aligned
        have next : Word32.sub page pageSize = page - 4096 := Word32.sub_eq (by
          unfold pageSize
          omega) word
        refine calm.trans ctxt₂ (freePages_pages source pos fuel _ ?_ ?_ returned)
        · rw [next]
          unfold pageSize
          omega
        · rw [next]
          omega
      next done =>
        cases returned
        exact PageCalm.refl _ _ s

end PageFree

end Loops

/-! ## The calls -/

section Paths

variable {getPagePma : KM PageTables ℕ} {kmalloc : ℕ → KM PageTables ℕ} {n alignment : ℕ}

/-- `align` to a page, with the wrap-around. -/
theorem align_page {a : ℕ} (word : a < 2 ^ 32) :
    align a pageSize = (a / 4096 * 4096 + if a % 4096 ≠ 0 then 4096 else 0) % 2 ^ 32 := by
  have mask : Word32.sub pageSize 1 = 2 ^ 12 - 1 := by
    rw [pageSize, Word32.sub_eq (by decide) (by decide)]
    rfl
  unfold align
  rw [mask, Word32.and_not_low (by decide) word, Word32.and_low]
  unfold Word32.add pageSize
  split_ifs <;> omega

/-- Rounding up does not pass a multiple that is not below. -/
theorem align_le {a p : ℕ} (word : a < 2 ^ 32) (multiple : p % pageSize = 0) (le : a ≤ p) :
    align a pageSize ≤ p := by
  unfold pageSize at multiple
  rw [align_page word]
  split <;> omega

theorem align_page_mod {a : ℕ} (word : a < 2 ^ 32) : align a pageSize % pageSize = 0 := by
  rw [align_page word]
  unfold pageSize
  split <;> omega

/-- The padding of an aligned request lies on the page of the old end. -/
theorem KernelAlignment.page_of_padding (kernel : KernelAlignment alignment) {stop p : ℕ}
    (multStop : stop % 8 = 0) (multiple : p % pageSize = 0)
    (below : p < alignedEnd stop alignment) :
    p < stop := by
  unfold pageSize at multiple
  rcases kernel with rfl | rfl
  · unfold alignedEnd kmMinAllocSize at below
    omega
  · unfold alignedEnd pageSize at below
    omega

/-- The pages below an aligned end are those below the end. -/
theorem PresentBetween.alignedEnd {pages : PageTables} {first stop : ℕ}
    (present : PresentBetween pages first stop) (kernel : KernelAlignment alignment)
    (multStop : stop % 8 = 0) : PresentBetween pages first (alignedEnd stop alignment) :=
  fun p multiple lower upper =>
    present p multiple lower (kernel.page_of_padding multStop multiple upper)

variable {first stop target : ℕ}

/-- The extension of a heap makes its new pages present before it touches
them. -/
theorem ExtendPath.pages (supplier : Elsewhere foreign getPagePma)
    (start : first = align s.ctxt.start kmMinAllocSize) (fits : target + n + 8 < 2 ^ 32)
    (present : PresentBetween s.pages first target)
    (path : ExtendPath getPagePma first target n s s') :
    PagesPresent s' ∧ AccessesMapped foreign s s' := by
  cases path with
  | @parts s₁ s₂ _ pad loop finish ending =>
      have start₁ : s₁.ctxt.start = s.ctxt.start := pad.start
      obtain ⟨calm, behind⟩ := allocMapPages_pages supplier fits _ _ loop
      have ctxt₂ := (allocMapPages_quiet supplier.quiet _ _ _ _ _ _ loop).ctxt
      have present₂ : PresentBetween s₂.pages first (target + n + 8) := by
        intro p multiple lower upper
        have own : OwnPage { s₁ with ctxt := { s₁.ctxt with heapEnd := target + n + 8 } } p :=
          ⟨multiple, by rwa [start₁, ← start], upper⟩
        by_cases before : p < target
        · refine calm.keeps p own id ?_
          change PageLayer.mapped s₁.pages p = true
          rw [pad.pages]
          exact present p multiple lower before
        · exact behind p own (align_le (by omega) multiple (by omega)) upper
            (align_page_mod (by omega))
      constructor
      · unfold PagesPresent
        rw [finish.pages, finish.start, ctxt₂, start₁, ← start, ending]
        exact present₂
      · have before : AccessesMapped foreign s s₂ :=
          (pad.accessesMapped fun a within => present.word within).trans
            (calm.accesses.congr rfl rfl)
        exact before.trans (finish.accessesMapped fun a within => present₂.word within)

/-- A call of `alloc` keeps the pages of the heap present. -/
theorem AllocPath.pages (supplier : Elsewhere foreign getPagePma)
    (kernel : KernelAlignment alignment) (start : first = align s.ctxt.start kmMinAllocSize)
    (multStop : stop % 8 = 0) (present : PresentBetween s.pages first stop)
    (path : AllocPath getPagePma first stop (alignedEnd stop alignment) n s s') :
    PagesPresent s' ∧ AccessesMapped foreign s s' := by
  cases path with
  | found search ending =>
      refine ⟨?_, search.accessesMapped fun a within => present.word within⟩
      unfold PagesPresent
      rw [search.pages, search.start, ← start, ending]
      exact present
  | @extended t _ search fits extend =>
      have presentT : PresentBetween t.pages first (alignedEnd stop alignment) := by
        rw [search.pages]
        exact present.alignedEnd kernel multStop
      obtain ⟨present', accesses⟩ :=
        extend.pages supplier (by rw [search.start, start]) fits presentT
      exact ⟨present', (search.accessesMapped fun a within => present.word within).trans accesses⟩

/-- So does a call of `free`: the pages it gives up lie behind the new end. -/
theorem FreePath.pages (source : NodeSource foreign kmalloc)
    (start : first = align s.ctxt.start kmMinAllocSize) (word : stop < 2 ^ 32)
    (present : PresentBetween s.pages first stop)
    (path : FreePath (pageFreeWith kmalloc) first stop s s') :
    PagesPresent s' ∧ AccessesMapped foreign s s' := by
  cases path with
  | inside touch ending =>
      refine ⟨?_, touch.accessesMapped fun a within => present.word within⟩
      unfold PagesPresent
      rw [touch.pages, touch.start, ← start, ending]
      exact present
  | @atEnd t t' vma touch ending low high loop =>
      have top : stop &&& Word32.not 0xfff = stop / 2 ^ 12 * 2 ^ 12 := by
        rw [show (0xfff : ℕ) = 2 ^ 12 - 1 from rfl]
        exact Word32.and_not_low (by decide) word
      have calm := freePages_pages source (show 0 < vma by omega) _ _
        (by rw [top]; unfold pageSize; omega) (by rw [top]; omega) loop
      have ctxt' := (freePages_quiet (pageFreeWith_quiet source) _ _ _ _ _ _ loop).ctxt
      constructor
      · change PresentBetween t'.pages (align t'.ctxt.start kmMinAllocSize) vma
        rw [ctxt', touch.start, ← start]
        intro p multiple lower upper
        refine calm.keeps p ⟨multiple, ?_, by omega⟩ (by omega) ?_
        · rwa [touch.start, ← start]
        · rw [touch.pages]
          exact present p multiple lower (by omega)
      · exact (touch.accessesMapped fun a within => present.word within).trans
          (calm.accesses.congr rfl rfl)

end Paths

/-! ## Runs -/

/-- One call on a heap context over page tables, preceded by client writes. -/
inductive PagedStep (foreign : ℕ → Prop) (kmalloc : ℕ → KM PageTables ℕ) :
    Client PageTables → Client PageTables → Prop
  | alloc {s s₁ s₂ : Sys PageTables} {live : List Chunk} {getPagePma : KM PageTables ℕ}
      {alignment bytes v : ℕ} (writes : ClientWrites live s s₁)
      (keeps : PagesPresent s → PagesPresent s₁) (supplier : Elsewhere foreign getPagePma)
      (kernel : KernelAlignment alignment) (noWrap : NoWrap s₁ alignment bytes)
      (returned : alloc getPagePma alignment bytes s₁ = .ok (v, s₂)) :
      PagedStep foreign kmalloc ⟨s, live⟩ ⟨s₂, ⟨v, roundBytes bytes, false⟩ :: live⟩
  | free {s s₁ s₂ : Sys PageTables} {live : List Chunk} {c : Chunk}
      (writes : ClientWrites live s s₁) (keeps : PagesPresent s → PagesPresent s₁)
      (member : c ∈ live) (returned : free (pageFreeWith kmalloc) c.vma s₁ = .ok ((), s₂)) :
      PagedStep foreign kmalloc ⟨s, live⟩ ⟨s₂, live.erase c⟩

section Runs

variable {kmalloc : ℕ → KM PageTables ℕ} {w w' : Client PageTables}

theorem PagedStep.heapStep (step : PagedStep foreign kmalloc w w') :
    HeapStep (pageFreeWith kmalloc) NoWrap w w' := by
  cases step with
  | alloc writes keeps supplier kernel noWrap returned =>
      exact .alloc writes supplier.quiet kernel noWrap returned
  | free writes keeps member returned => exact .free writes member returned

/-- **One step** keeps the pages present and accesses nothing else. -/
theorem PagedStep.pages (source : NodeSource foreign kmalloc) (inv : ClientInv w)
    (present : PagesPresent w.sys) (step : PagedStep foreign kmalloc w w') :
    PagesPresent w'.sys ∧ AccessesMapped foreign w.sys w'.sys := by
  obtain ⟨H, ctx, perm, terminal⟩ := inv
  cases step with
  | @alloc s s₁ s₂ live getPagePma alignment bytes v writes keeps supplier kernel noWrap returned =>
      obtain ⟨ctx₁, keepTerminal⟩ := writes.context ctx perm
      obtain ⟨M, -, -, -, -, path⟩ := alloc_returned supplier.quiet ctx₁
        (fun some => keepTerminal (terminal some)) kernel noWrap returned
      have present₁ := keeps present
      unfold PagesPresent at present₁
      rw [← ctx₁.start, ctx₁.atEnd] at present₁
      obtain ⟨present₂, accesses⟩ :=
        path.pages supplier kernel ctx₁.start H.stop_aligned present₁
      exact ⟨present₂, accesses.congr writes.log.symm rfl⟩
  | @free s s₁ s₂ live c writes keeps member returned =>
      obtain ⟨ctx₁, keepTerminal⟩ := writes.context ctx perm
      have liveC := (live_iff perm).mp member
      have some : H.chunks ≠ [] := List.ne_nil_of_mem liveC.1
      obtain ⟨M, -, -, -, -, path⟩ := free_returned (pageFreeWith_quiet source) ctx₁
        (keepTerminal (terminal some)) liveC returned
      have present₁ := keeps present
      unfold PagesPresent at present₁
      rw [← ctx₁.start, ctx₁.atEnd] at present₁
      obtain ⟨present₂, accesses⟩ := path.pages source ctx₁.start H.bound present₁
      exact ⟨present₂, accesses.congr writes.log.symm rfl⟩

/-- `alloc_new_heap` makes the page of the first descriptor present. -/
theorem mapIfAbsent_mapped {pageNew : KM PageTables ℕ} {v : ℕ} {u : Unit}
    (returned : mapIfAbsent pageNew v s = .ok (u, s')) :
    PageLayer.mapped s'.pages v = true := by
  unfold mapIfAbsent at returned
  obtain ⟨present, s₁, check, returned⟩ := Prog.bind_eq_ok.mp returned
  split at returned
  · obtain ⟨pma, s₂, -, write⟩ := Prog.bind_eq_ok.mp returned
    exact (pageSetEntry_calm (fun _ => False) (entryPresent_or pma) write).2 v rfl
  next isPresent =>
    cases returned
    unfold pageIsPresent at check
    unfold PageLayer.mapped
    cases result : PageLayer.isPresent v s.pages with
    | error e =>
        rw [result] at check
        cases check
    | ok found =>
        rw [result] at check
        cases check
        rw [result]
        simpa using isPresent

/-- The pages of a new heap are present. -/
theorem initHeap_pages {pageNew : KM PageTables ℕ} {heapStart : ℕ} {u : Unit}
    (word : heapStart < 2 ^ 32) (fits : align heapStart kmMinAllocSize + 8 < 2 ^ 32)
    (returned : initHeap pageNew heapStart s = .ok (u, s')) : PagesPresent s' := by
  have aligned := align_mod_eight word
  have ctxt := initHeap_ctxt returned
  have first : PageLayer.mapped s'.pages (align heapStart kmMinAllocSize) = true := by
    unfold initHeap at returned
    obtain ⟨made, s₁, new, returned⟩ := Prog.bind_eq_ok.mp returned
    cases returned
    unfold allocNewHeap at new
    obtain ⟨_, s₂, map, afterMap⟩ := Prog.bind_eq_ok.mp new
    obtain ⟨_, s₃, write, final⟩ := Prog.bind_eq_ok.mp afterMap
    cases write
    cases final
    have mapped := mapIfAbsent_mapped map
    exact mapped
  intro p multiple lower upper
  rw [ctxt] at lower upper
  simp only [chunkDescSize] at lower upper
  rw [Word32.add_eq fits] at upper
  generalize align heapStart kmMinAllocSize = v at *
  have here : p / pageSize = v / pageSize := by
    unfold pageStart at lower
    unfold pageSize at *
    omega
  rw [PageTables.mapped_congr here]
  exact first

/-- The two invariants of a run from a new context: the heap is its chunks, and
its pages are present. -/
theorem clientInv_and_pages_of_run {pageNew : KM PageTables ℕ} {heapStart : ℕ} {u : Unit}
    (source : NodeSource foreign kmalloc) (word : heapStart < 2 ^ 32)
    (fits : align heapStart kmMinAllocSize + 8 < 2 ^ 32)
    (new : initHeap pageNew heapStart s = .ok (u, s'))
    (run : Relation.ReflTransGen (PagedStep foreign kmalloc) ⟨s', []⟩ w) :
    ClientInv w ∧ PagesPresent w.sys := by
  have inv : ∀ {w}, Relation.ReflTransGen (PagedStep foreign kmalloc) ⟨s', []⟩ w → ClientInv w :=
    fun run => clientInv_of_run (pageFreeWith_quiet source) (fun _ noWrap => noWrap)
      (initHeap_inv word fits new)
      (Relation.ReflTransGen.mono (fun _ _ => PagedStep.heapStep) _ _ run)
  refine ⟨inv run, ?_⟩
  induction run with
  | refl => exact initHeap_pages word fits new
  | tail run step ih => exact (step.pages source (inv run) ih).1

end Runs

/-- One page table for the first four megabytes, no page present. -/
def blankTables : Sys PageTables where
  mem _ := 0
  ctxt := ⟨0, 0, 0⟩
  pages :=
    { dir := fun _ => 0
      table := fun idx => if idx = 0 then some fun _ => 0 else none
      freeList := 0
      heapEndPma := 0x200000
      trace := [] }
  log := []

/-- A node source whose heap is one node at `0x100000`. -/
def nodeAbove (_bytes : ℕ) : KM PageTables ℕ := fun s =>
  if s.ctxt.heapEnd ≤ 0x100000 then .ok (0x100000, s) else .error .fuel

theorem nodeAbove_source : NodeSource (fun a => 0x100000 ≤ a) nodeAbove := by
  have returns : ∀ {bytes s n s'}, nodeAbove bytes s = .ok (n, s') →
      n = 0x100000 ∧ s' = s ∧ s.ctxt.heapEnd ≤ 0x100000 := by
    intro bytes s n s' returned
    unfold nodeAbove at returned
    split at returned
    next below =>
      cases returned
      exact ⟨rfl, rfl, below⟩
    next => cases returned
  refine ⟨fun bytes => ⟨fun s a s' returned => ?_, fun returned => ?_⟩, fun returned => ?_⟩
  · obtain ⟨-, rfl, -⟩ := returns returned
    exact Undisturbed.refl _
  · obtain ⟨-, rfl, -⟩ := returns returned
    exact PageCalm.refl _ _ _
  · obtain ⟨rfl, -, below⟩ := returns returned
    have next : pageNextField 0x100000 = 0x100004 := Word32.add_eq (by decide)
    unfold OwnWord pmaField
    rw [next]
    exact ⟨⟨le_rfl, fun own => by omega⟩, by decide, fun own => by omega⟩

theorem elsewhere_pure (foreign : ℕ → Prop) (a : ℕ) :
    Elsewhere foreign (pure a : KM PageTables ℕ) := by
  refine ⟨quiet_pure a, fun returned => ?_⟩
  cases returned
  exact PageCalm.refl _ _ _

end TrashOS
