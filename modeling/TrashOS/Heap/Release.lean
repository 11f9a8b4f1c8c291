import TrashOS.Heap.Undo

/-!
# Pages mapped and pages released

Which pages the calls of a heap context hand to `page_set_entry` and to
`page_free`.  The pages of a context are counted from the log: `PageCalls` says
which pages were mapped and which were released between two states, each list up
to order.

A call of `alloc` maps the page starts between the old end and the new one, and a
call of `free` that shrinks the heap releases the page starts between the new end
and the old one (`ReleaseStep.exact`), unless the old end is itself a page start:
then the loop of `free` begins with the page behind the heap, which is not there.
In runs that avoid this, every page mapped was released or is still present
(`releases_exact_of_run`).
-/

namespace TrashOS

variable {π : Type}

/-! ## Page calls in the log -/

/-- The pages `alloc` handed to `page_set_entry`. -/
def mappedPages (es : List (Event π)) : List ℕ :=
  es.filterMap fun e => match e with
    | .setEntry vma _ => some vma
    | _ => none

/-- The pages `free` handed to `page_free`. -/
def releasedPages (es : List (Event π)) : List ℕ :=
  es.filterMap fun e => match e with
    | .pageFree vma => some vma
    | _ => none

/-- Between `s` and `s'` the calls of the context mapped the pages `mapped` and
released the pages `released`. -/
def PageCalls (mapped released : List ℕ) (s s' : Sys π) : Prop :=
  ∃ es, s'.log = es ++ s.log ∧ (mappedPages es).Perm mapped ∧ (releasedPages es).Perm released

/-- A computation of the page layer that is not a call of the context. -/
def Silent {α : Type} (m : KM π α) : Prop :=
  ∀ s a s', m s = .ok (a, s') → PageCalls [] [] s s'

namespace PageCalls

variable {s s' s'' : Sys π} {mapped released mapped' released' : List ℕ}

theorem refl (s : Sys π) : PageCalls [] [] s s :=
  ⟨[], rfl, List.Perm.nil, List.Perm.nil⟩

theorem trans (first : PageCalls mapped released s s')
    (second : PageCalls mapped' released' s' s'') :
    PageCalls (mapped ++ mapped') (released ++ released') s s'' := by
  obtain ⟨es, logEq, maps, frees⟩ := first
  obtain ⟨es', logEq', maps', frees'⟩ := second
  refine ⟨es' ++ es, by rw [logEq', logEq, List.append_assoc], ?_, ?_⟩
  · rw [mappedPages, List.filterMap_append]
    exact (maps'.append maps).trans List.perm_append_comm
  · rw [releasedPages, List.filterMap_append]
    exact (frees'.append frees).trans List.perm_append_comm

theorem congr_perm (calls : PageCalls mapped released s s') (maps : mapped.Perm mapped')
    (frees : released.Perm released') : PageCalls mapped' released' s s' := by
  obtain ⟨es, logEq, mapsEs, freesEs⟩ := calls
  exact ⟨es, logEq, mapsEs.trans maps, freesEs.trans frees⟩

/-- Only the log matters. -/
theorem congr {t t' : Sys π} (calls : PageCalls mapped released s s') (start : t.log = s.log)
    (final : t'.log = s'.log) : PageCalls mapped released t t' := by
  obtain ⟨es, logEq, lists⟩ := calls
  exact ⟨es, by rw [final, logEq, start], lists⟩

end PageCalls

theorem silent_pure {α : Type} (a : α) : Silent (pure a : KM π α) := by
  intro s b s' returned
  cases returned
  exact PageCalls.refl s

/-- One release by `free`. -/
theorem record_pageFree_calls (s : Sys π) (page : ℕ) :
    PageCalls [] [page] s { s with log := .pageFree page :: s.log } :=
  ⟨[.pageFree page], rfl, List.Perm.nil, List.Perm.refl _⟩

section Layer

variable [PageLayer π] {s s' : Sys π}

/-- The accesses of the allocator are not page calls. -/
theorem Touch.pageCalls {A : ℕ → Prop} (touch : Touch A s s') : PageCalls [] [] s s' := by
  obtain ⟨es, logEq, accesses⟩ := touch.log
  refine ⟨es, logEq, ?_, ?_⟩
  · have none : mappedPages es = [] := by
      refine List.filterMap_eq_nil_iff.mpr fun e member => ?_
      obtain ⟨a, -, rfl | rfl⟩ := accesses e member <;> rfl
    rw [none]
  · have none : releasedPages es = [] := by
      refine List.filterMap_eq_nil_iff.mpr fun e member => ?_
      obtain ⟨a, -, rfl | rfl⟩ := accesses e member <;> rfl
    rw [none]

theorem pageSetEntry_calls {vma entry : ℕ} {u : Unit}
    (returned : pageSetEntry vma entry s = .ok (u, s')) : PageCalls [vma] [] s s' := by
  unfold pageSetEntry at returned
  split at returned
  · cases returned
    exact ⟨[.setEntry vma entry], rfl, List.Perm.refl _, List.Perm.nil⟩
  · cases returned

/-- Mapping each page of a list. -/
theorem mapEach_calls {getPagePma : KM π ℕ} (silent : Silent getPagePma) {u : Unit} :
    ∀ (pages : List ℕ) {s s' : Sys π}, mapEach getPagePma pages s = .ok (u, s') →
      PageCalls pages [] s s'
  | [], s, s', returned => by
      cases returned
      exact PageCalls.refl s
  | page :: pages, s, s', returned => by
      obtain ⟨pma, s₁, first, returned⟩ := Prog.bind_eq_ok.mp returned
      obtain ⟨_, s₂, second, returned⟩ := Prog.bind_eq_ok.mp returned
      exact ((silent _ _ _ first).trans (pageSetEntry_calls second)).trans
        (mapEach_calls silent pages returned)

end Layer

/-- Releasing each page of a list. -/
theorem freeEach_calls {pageFree : ℕ → KM π Unit} (silent : ∀ v, Silent (pageFree v)) {u : Unit} :
    ∀ (pages : List ℕ) {s s' : Sys π}, freeEach pageFree pages s = .ok (u, s') →
      PageCalls [] pages s s'
  | [], s, s', returned => by
      cases returned
      exact PageCalls.refl s
  | page :: pages, s, s', returned => by
      obtain ⟨_, s₁, first, returned⟩ := Prog.bind_eq_ok.mp returned
      cases first
      obtain ⟨_, s₂, second, returned⟩ := Prog.bind_eq_ok.mp returned
      exact ((record_pageFree_calls s page).trans (silent _ _ _ _ second)).trans
        (freeEach_calls silent pages returned)

/-- `page_free` with a silent `kmalloc`. -/
theorem pageFreeWith_silent {kmalloc : ℕ → KM PageTables ℕ} (silent : ∀ n, Silent (kmalloc n))
    (vma : ℕ) : Silent (pageFreeWith kmalloc vma) := by
  intro s a s' returned
  unfold pageFreeWith at returned
  obtain ⟨node, s₁, first, returned⟩ := Prog.bind_eq_ok.mp returned
  obtain ⟨pma, s₂, second, returned⟩ := Prog.bind_eq_ok.mp returned
  obtain ⟨pages, -, rfl⟩ := onPages_eq_ok.mp second
  obtain ⟨next, s₃, read, returned⟩ := Prog.bind_eq_ok.mp returned
  cases read
  obtain ⟨_, s₄, storePma, returned⟩ := Prog.bind_eq_ok.mp returned
  cases storePma
  obtain ⟨_, s₅, storeNext, returned⟩ := Prog.bind_eq_ok.mp returned
  cases storeNext
  obtain ⟨_, s₆, unmap, returned⟩ := Prog.bind_eq_ok.mp returned
  obtain ⟨pages', -, rfl⟩ := onPages_eq_ok.mp unmap
  obtain ⟨_, s₇, setList, final⟩ := Prog.bind_eq_ok.mp returned
  cases setList
  cases final
  suffices own : PageCalls [] [] s₁ _ from (silent _ _ _ _ first).trans own
  exact ⟨[.pageRelease pma,
    .store (pageNextField node) (PageLayer.mapped pages (pageNextField node)),
    .store (pmaField node) (PageLayer.mapped pages (pmaField node))], rfl, List.Perm.nil,
    List.Perm.nil⟩

/-! ## One call -/

theorem startsBetween_of_le {lo hi : ℕ} (le : hi ≤ lo) : startsBetween lo hi = [] := by
  refine List.eq_nil_iff_forall_not_mem.mpr fun p member => ?_
  have := mem_startsBetween.mp member
  omega

/-- Page starts split at an address. -/
theorem startsBetween_append {lo mid hi : ℕ} (left : lo ≤ mid) (right : mid ≤ hi) :
    (startsBetween lo mid ++ startsBetween mid hi).Perm (startsBetween lo hi) := by
  refine perm_startsBetween ?_ fun p => ?_
  · refine List.nodup_append.mpr ⟨(startsBetween_pairwise _ _).imp ne_of_lt,
      (startsBetween_pairwise _ _).imp ne_of_lt, fun p before q behind same => ?_⟩
    have := mem_startsBetween.mp before
    have := mem_startsBetween.mp behind
    omega
  · rw [List.mem_append, mem_startsBetween, mem_startsBetween]
    omega

section Calls

variable [PageLayer π] {s s' : Sys π} {H : Heap} {getPagePma : KM π ℕ} {alignment n v : ℕ}

/-- **A call of `alloc`** maps the page starts between the old end and the new one. -/
theorem AllocPath.calls (silent : Silent getPagePma)
    (kernel : KernelAlignment alignment) (ctx : HeapContext s H)
    (path : AllocPath getPagePma H.first H.stop (alignedEnd H.stop alignment) n s s') :
    s.ctxt.heapEnd ≤ s'.ctxt.heapEnd ∧
      PageCalls (startsBetween s.ctxt.heapEnd s'.ctxt.heapEnd) [] s s' := by
  have multStop := H.stop_aligned
  rw [ctx.atEnd]
  cases path with
  | found search ending =>
      rw [ending, startsBetween_of_le le_rfl]
      exact ⟨le_rfl, search.pageCalls⟩
  | @extended t _ search fits extend =>
      obtain ⟨-, le, -⟩ := kernel.alignedEnd_spec multStop (by omega)
      cases extend with
      | @parts s₁ s₂ _ pad loop finish ending =>
          rw [ending]
          refine ⟨by omega, ?_⟩
          generalize aligned : alignedEnd H.stop alignment = target at *
          have below : target + n + 8 ≤ 2 ^ 32 - pageSize := by
            by_contra high
            exact allocMapPages_never_returns getPagePma (Nat.not_le.mp high) _
              (align_page_mod (by omega)) (Word32.add_lt _ _) loop
          rw [allocMapPages_eq getPagePma (by omega) below
            (length_startsBetween_lt fits.le)] at loop
          have opened : PageCalls [] [] t
              { s₁ with ctxt := { s₁.ctxt with heapEnd := target + n + 8 } } :=
            pad.pageCalls.congr rfl rfl
          have calls := ((search.pageCalls.trans opened).trans (mapEach_calls silent _ loop)).trans
            finish.pageCalls
          refine calls.congr_perm ?_ (List.Perm.refl _)
          rw [List.nil_append, List.nil_append, List.append_nil]
          -- padding does not pass a page start
          refine perm_startsBetween ((startsBetween_pairwise _ _).imp ne_of_lt) fun p => ?_
          rw [mem_startsBetween]
          constructor
          · rintro ⟨multiple, lower, upper⟩
            exact ⟨multiple, by omega, upper⟩
          · rintro ⟨multiple, lower, upper⟩
            refine ⟨multiple, ?_, upper⟩
            by_contra before
            have := kernel.page_of_padding multStop multiple (by omega : p < _)
            omega

variable {pageFree : ℕ → KM π Unit} {before post : List Chunk} {c : Chunk}

/-- `free` of a block that is not the last chunk does not reach the end of the
heap. -/
theorem free_inner (ctx : HeapContext s H) (terminal : TerminalClear s H)
    (split : H.chunks = before.reverse ++ c :: post) (used : c.free = false) (more : post ≠ [])
    (returned : free pageFree c.vma s = .ok ((), s')) :
    Touch (Between H.first H.stop) s s' ∧ s'.ctxt.heapEnd = H.stop := by
  have live : KeepsLive H fun _ => False := fun _ kept => kept.elim
  have rest : (absorbNext c post).2 ≠ [] := by
    obtain ⟨d, behind, rfl⟩ := List.exists_cons_of_ne_nil more
    cases isFree : d.free with
    | false => simp [absorbNext_of_used isFree]
    | true =>
        -- a free chunk is not the last one
        rw [absorbNext_of_free isFree]
        rintro rfl
        have last := ctx.closed d (by simp [split])
        rw [isFree] at last
        cases last
  obtain ⟨M, t, run, -, -, -, -, ending, -⟩ :=
    freeBy_inside ctx.rep split used (fun _ => terminal) live id (by
      rw [ctx.atEnd]
      exact (coalesce_stop_lt split rest).ne')
  have call := run (shrinkHeap pageFree)
  rw [← free_eq] at call
  rw [call.1] at returned
  cases returned
  exact ⟨call.2.mono fun _ => Footprint.between, by rw [ending, ctx.atEnd]⟩

/-- **A call of `free`** releases the page starts between the new end and the old
one, if the old end is not a page start where the block is the last one. -/
theorem free_calls (quiet : ∀ v, Quiet (pageFree v)) (silent : ∀ v, Silent (pageFree v))
    (ctx : HeapContext s H) (terminal : TerminalClear s H) (liveC : H.Live c)
    (inside : c.stop + chunkDescSize = s.ctxt.heapEnd → s.ctxt.heapEnd % pageSize ≠ 0)
    (returned : free pageFree c.vma s = .ok ((), s')) :
    s'.ctxt.heapEnd ≤ s.ctxt.heapEnd ∧
      PageCalls [] (startsBetween s'.ctxt.heapEnd s.ctxt.heapEnd) s s' := by
  obtain ⟨before, post, split⟩ := liveC.split
  have bound := H.bound
  rw [ctx.atEnd] at inside ⊢
  cases post with
  | cons d post =>
      obtain ⟨touch, ending⟩ := free_inner ctx terminal split liveC.2 (by simp) returned
      rw [ending, startsBetween_of_le le_rfl]
      exact ⟨le_rfl, touch.pageCalls⟩
  | nil =>
      have last : c.stop + chunkDescSize = H.stop := (Heap.last_stop split).symm
      obtain ⟨M, -, -, -, -, path⟩ := free_returned quiet ctx terminal liveC returned
      cases path with
      | inside touch ending =>
          rw [ending, startsBetween_of_le le_rfl]
          exact ⟨le_rfl, touch.pageCalls⟩
      | @atEnd t t' vma touch ending low high loop =>
          obtain ⟨pages, decreasing, exact_, enough, eq⟩ := releaseLoop_eq bound
            (show 0 < vma by omega)
          have released := freeEach_calls silent pages (by
            rw [← eq π pageFree pageFuel enough]
            exact loop)
          refine ⟨high, ((touch.pageCalls.trans released).congr rfl rfl).congr_perm
            (List.Perm.refl _) ?_⟩
          have top : H.stop &&& Word32.not 0xfff = H.stop / 4096 * 4096 :=
            Word32.and_not_low (k := 12) (by decide) bound
          have offStart := inside last
          rw [List.nil_append]
          refine perm_startsBetween (decreasing.imp fun gt => ne_of_gt gt) fun p => ?_
          rw [exact_, top]
          unfold pageSize at *
          constructor
          · rintro ⟨multiple, lower, upper⟩
            exact ⟨multiple, lower, by omega⟩
          · rintro ⟨multiple, lower, upper⟩
            exact ⟨multiple, lower, by omega⟩

end Calls

/-! ## Runs -/

/-- One call on a heap context over page tables, preceded by client writes.  The
page layer makes no page calls of the context, and a block that `free` takes from
the end of the heap leaves from inside a page. -/
inductive ReleaseStep (foreign : ℕ → Prop) (kmalloc : ℕ → KM PageTables ℕ) :
    Client PageTables → Client PageTables → Prop
  | alloc {s s₁ s₂ : Sys PageTables} {live : List Chunk} {getPagePma : KM PageTables ℕ}
      {alignment bytes v : ℕ} (writes : ClientWrites live s s₁)
      (keeps : PagesPresent s → PagesPresent s₁) (supplier : Elsewhere foreign getPagePma)
      (silent : Silent getPagePma) (kernel : KernelAlignment alignment)
      (noWrap : NoWrap s₁ alignment bytes)
      (returned : alloc getPagePma alignment bytes s₁ = .ok (v, s₂)) :
      ReleaseStep foreign kmalloc ⟨s, live⟩ ⟨s₂, ⟨v, roundBytes bytes, false⟩ :: live⟩
  | free {s s₁ s₂ : Sys PageTables} {live : List Chunk} {c : Chunk}
      (writes : ClientWrites live s s₁) (keeps : PagesPresent s → PagesPresent s₁)
      (member : c ∈ live)
      (inside : c.stop + chunkDescSize = s₁.ctxt.heapEnd → s₁.ctxt.heapEnd % pageSize ≠ 0)
      (returned : free (pageFreeWith kmalloc) c.vma s₁ = .ok ((), s₂)) :
      ReleaseStep foreign kmalloc ⟨s, live⟩ ⟨s₂, live.erase c⟩

section Runs

variable {foreign : ℕ → Prop} {kmalloc : ℕ → KM PageTables ℕ} {s s' : Sys PageTables}
  {w w' : Client PageTables}

theorem ReleaseStep.pagedStep (step : ReleaseStep foreign kmalloc w w') :
    PagedStep foreign kmalloc w w' := by
  cases step with
  | alloc writes keeps supplier silent kernel noWrap returned =>
      exact .alloc writes keeps supplier kernel noWrap returned
  | free writes keeps member inside returned => exact .free writes keeps member returned

/-- **One step** maps the page starts the end of the heap moves over upwards, or
releases those it moves over downwards. -/
theorem ReleaseStep.exact (source : NodeSource foreign kmalloc) (silent : ∀ n, Silent (kmalloc n))
    (inv : ClientInv w) (step : ReleaseStep foreign kmalloc w w') :
    PageCalls (startsBetween w.sys.ctxt.heapEnd w'.sys.ctxt.heapEnd)
      (startsBetween w'.sys.ctxt.heapEnd w.sys.ctxt.heapEnd) w.sys w'.sys := by
  obtain ⟨H, ctx, perm, terminal⟩ := inv
  cases step with
  | @alloc s s₁ s₂ live get alignment bytes v writes keeps supplier silentGet kernel noWrap
      returned =>
      obtain ⟨ctx₁, keepTerminal⟩ := writes.context ctx perm
      obtain ⟨M, -, -, -, -, path⟩ := alloc_returned supplier.quiet ctx₁
        (fun some => keepTerminal (terminal some)) kernel noWrap returned
      obtain ⟨up, calls⟩ := path.calls silentGet kernel ctx₁
      rw [writes.ctxt] at up calls
      rw [startsBetween_of_le up]
      exact calls.congr writes.log.symm rfl
  | @free s s₁ s₂ live c writes keeps member inside returned =>
      obtain ⟨ctx₁, keepTerminal⟩ := writes.context ctx perm
      have liveC := (live_iff perm).mp member
      have some : H.chunks ≠ [] := List.ne_nil_of_mem liveC.1
      obtain ⟨down, calls⟩ := free_calls (pageFreeWith_quiet source) (pageFreeWith_silent silent)
        ctx₁ (keepTerminal (terminal some)) liveC inside returned
      rw [writes.ctxt] at down calls
      rw [startsBetween_of_le down]
      exact calls.congr writes.log.symm rfl

/-- The end of a context lies behind its first descriptor. -/
theorem ClientInv.first_le (inv : ClientInv w) :
    align w.sys.ctxt.start kmMinAllocSize + 8 ≤ w.sys.ctxt.heapEnd := by
  obtain ⟨H, ctx, -, -⟩ := inv
  have := H.first_le_stop
  rw [← ctx.start, ctx.atEnd]
  exact this

/-- The balance of a run: the pages mapped are those released and those of the heap
behind the first end. -/
theorem balance_step {first lo hi : ℕ} {mapped released : List ℕ} (start : first ≤ lo)
    (end_ : first ≤ hi) (balance : mapped.Perm (released ++ startsBetween first lo)) :
    (mapped ++ startsBetween lo hi).Perm
      ((released ++ startsBetween hi lo) ++ startsBetween first hi) := by
  rcases le_total lo hi with up | down
  · rw [startsBetween_of_le up, List.append_nil]
    refine (balance.append_right _).trans ?_
    rw [List.append_assoc]
    exact (startsBetween_append start up).append_left released
  · rw [startsBetween_of_le down, List.append_nil, List.append_assoc]
    refine balance.trans (List.Perm.append_left released ?_)
    exact (startsBetween_append end_ down).symm.trans List.perm_append_comm

/-- **Heap shrinking releases exactly what was mapped.** In every run in which no block leaves the
end of the heap from a page start, each step releases the present pages of the heap that start
between its new end and its old one, and altogether every page that was mapped was released or is
a page of the heap and present.  Within a step no page is released twice.  A block that leaves the
end from a page start is excluded by `ReleaseStep`: there the loop of `free` begins one page too
high, with a page that was never part of the heap. -/
theorem releases_exact_of_run {pageNew : KM PageTables ℕ} {heapStart : ℕ} {u : Unit}
    (source : NodeSource foreign kmalloc) (silent : ∀ n, Silent (kmalloc n))
    (word : heapStart < 2 ^ 32) (fits : align heapStart kmMinAllocSize + 8 < 2 ^ 32)
    (new : initHeap pageNew heapStart s = .ok (u, s'))
    (run : Relation.ReflTransGen (ReleaseStep foreign kmalloc) ⟨s', []⟩ w) :
    (∀ w', ReleaseStep foreign kmalloc w w' → ∃ es, w'.sys.log = es ++ w.sys.log ∧
      (releasedPages es).Nodup ∧ ∀ p, p ∈ releasedPages es ↔ p % pageSize = 0 ∧
        w'.sys.ctxt.heapEnd ≤ p ∧ p < w.sys.ctxt.heapEnd ∧ PageLayer.mapped w.sys.pages p = true) ∧
    ∃ es, w.sys.log = es ++ s'.log ∧
      (mappedPages es).Perm
        (releasedPages es ++ startsBetween s'.ctxt.heapEnd w.sys.ctxt.heapEnd) ∧
      ∀ p ∈ startsBetween s'.ctxt.heapEnd w.sys.ctxt.heapEnd,
        PageLayer.mapped w.sys.pages p = true := by
  have initial := initHeap_inv word fits new
  have quiet := pageFreeWith_quiet source
  have heapRun : ∀ {w}, Relation.ReflTransGen (ReleaseStep foreign kmalloc) ⟨s', []⟩ w →
      Relation.ReflTransGen (HeapStep (pageFreeWith kmalloc) NoWrap) ⟨s', []⟩ w := fun run =>
    Relation.ReflTransGen.mono (fun _ _ step => step.pagedStep.heapStep) _ _ run
  have inv : ∀ {w}, Relation.ReflTransGen (ReleaseStep foreign kmalloc) ⟨s', []⟩ w →
      ClientInv w := fun run =>
    clientInv_of_run quiet (fun _ noWrap => noWrap) initial (heapRun run)
  have start : ∀ {w}, Relation.ReflTransGen (ReleaseStep foreign kmalloc) ⟨s', []⟩ w →
      w.sys.ctxt.start = s'.ctxt.start := fun run =>
    start_of_run quiet (fun _ noWrap => noWrap) initial (heapRun run)
  have present : PagesPresent w.sys := (clientInv_and_pages_of_run source word fits new
    (Relation.ReflTransGen.mono (fun _ _ => ReleaseStep.pagedStep) _ _ run)).2
  -- every end of the run lies behind the first one
  have firstEnd : s'.ctxt.heapEnd = align s'.ctxt.start kmMinAllocSize + 8 := by
    rw [initHeap_ctxt new]
    exact Word32.add_eq fits
  have behind : ∀ {w}, Relation.ReflTransGen (ReleaseStep foreign kmalloc) ⟨s', []⟩ w →
      s'.ctxt.heapEnd ≤ w.sys.ctxt.heapEnd := fun run => by
    have := (inv run).first_le
    rw [start run] at this
    rw [firstEnd]
    exact this
  have ownPage : ∀ p, p % pageSize = 0 → s'.ctxt.heapEnd ≤ p → p < w.sys.ctxt.heapEnd →
      PageLayer.mapped w.sys.pages p = true := fun p multiple lower upper => by
    refine present p multiple ?_ upper
    rw [start run]
    exact (pageStart_le _).trans (by omega)
  refine ⟨fun w' step => ?_, ?_⟩
  · obtain ⟨es, logEq, -, frees⟩ := step.exact source silent (inv run)
    refine ⟨es, logEq, frees.nodup_iff.mpr ((startsBetween_pairwise _ _).imp ne_of_lt), fun p => ?_⟩
    have lower := behind (run.tail step)
    rw [frees.mem_iff, mem_startsBetween]
    constructor
    · rintro ⟨multiple, from_, upto⟩
      exact ⟨multiple, from_, upto, ownPage p multiple (lower.trans from_) upto⟩
    · rintro ⟨multiple, from_, upto, -⟩
      exact ⟨multiple, from_, upto⟩
  · have balance : ∃ mapped released, PageCalls mapped released s' w.sys ∧
        mapped.Perm (released ++ startsBetween s'.ctxt.heapEnd w.sys.ctxt.heapEnd) := by
      clear present ownPage
      induction run with
      | refl => exact ⟨[], [], PageCalls.refl s', by rw [startsBetween_of_le le_rfl]; rfl⟩
      | tail run step ih =>
          obtain ⟨mapped, released, calls, balance⟩ := ih
          exact ⟨_, _, calls.trans (step.exact source silent (inv run)),
            balance_step (behind run) (behind (run.tail step)) balance⟩
    obtain ⟨mapped, released, ⟨es, logEq, maps, frees⟩, balance⟩ := balance
    refine ⟨es, logEq, maps.trans (balance.trans (frees.symm.append_right _)), fun p member => ?_⟩
    obtain ⟨multiple, lower, upper⟩ := mem_startsBetween.mp member
    exact ownPage p multiple lower upper

end Runs

theorem nodeAbove_silent (n : ℕ) : Silent (nodeAbove n) := by
  intro s a s' returned
  unfold nodeAbove at returned
  split at returned
  · cases returned
    exact PageCalls.refl s
  · cases returned

/-- A block across a page boundary, allocated and freed: one page was mapped and
that page was released. -/
theorem releases_exact_of_block_across :
    ∃ s' w es, initHeap (pure 0x200000) 0x1ff0 blankTables = .ok ((), s') ∧
      Relation.ReflTransGen (ReleaseStep (fun a => 0x100000 ≤ a) nodeAbove) ⟨s', []⟩ w ∧
      w.sys.log = es ++ s'.log ∧ (mappedPages es).Perm
        (releasedPages es ++ startsBetween s'.ctxt.heapEnd w.sys.ctxt.heapEnd) := by
  obtain ⟨⟨e, v, e'⟩, t, returned, check⟩ := Prog.exists_of_check (s := blankTables)
    (m := do
      initHeap (pure 0x200000) 0x1ff0
      let e ← getEnd
      let v ← alloc (pure 0x201000) kmMinAllocSize 24
      let e' ← getEnd
      free (pageFreeWith nodeAbove) v
      pure (e, v, e'))
    (fun r _ => decide (r.1 = 0x1ff8 ∧ r.2.2 = 0x2018)) (by decide +kernel)
  obtain ⟨_, s', new, afterNew⟩ := Prog.bind_eq_ok.mp returned
  obtain ⟨_, _, ending, afterEnd⟩ := Prog.bind_eq_ok.mp afterNew
  cases ending
  obtain ⟨v₁, s₁, first, afterFirst⟩ := Prog.bind_eq_ok.mp afterEnd
  obtain ⟨_, _, ending, afterSecond⟩ := Prog.bind_eq_ok.mp afterFirst
  cases ending
  obtain ⟨_, s₂, release, final⟩ := Prog.bind_eq_ok.mp afterSecond
  cases final
  obtain ⟨firstEnd, secondEnd⟩ := of_decide_eq_true check
  have room : Room s' kmMinAllocSize 24 := by
    unfold Room
    rw [show s'.ctxt.heapEnd = 0x1ff8 from firstEnd]
    decide
  have step₁ : ReleaseStep (fun a => 0x100000 ≤ a) nodeAbove ⟨s', []⟩
      ⟨s₁, [⟨v, roundBytes 24, false⟩]⟩ :=
    .alloc (ClientWrites.refl _ s') id (elsewhere_pure _ _) (silent_pure _) (Or.inl rfl)
      (room.noWrap (Or.inl rfl)) first
  have step₂ : ReleaseStep (fun a => 0x100000 ≤ a) nodeAbove ⟨s₁, [⟨v, roundBytes 24, false⟩]⟩
      ⟨t, [⟨v, roundBytes 24, false⟩].erase ⟨v, roundBytes 24, false⟩⟩ := by
    refine .free (ClientWrites.refl _ s₁) id (by simp) (fun _ => ?_) release
    rw [show s₁.ctxt.heapEnd = 0x2018 from secondEnd]
    decide
  have run := (Relation.ReflTransGen.single step₁).tail step₂
  obtain ⟨es, logEq, balance, -⟩ := (releases_exact_of_run nodeAbove_source nodeAbove_silent
    (by decide) (by decide +kernel) new run).2
  exact ⟨s', _, es, new, run, logEq, balance⟩

/-- A block that ends the heap exactly at `0x2000` is freed: `free` calls
`page_free(0x2000)`, for a page behind the heap that is not present. -/
theorem release_of_absent_page :
    ∃ v s s', (do
        initHeap (pure 0x200000) 0x1000
        alloc (pure 0x201000) kmMinAllocSize 4080) blankTables = .ok (v, s) ∧
      free (pageFreeWith nodeAbove) v s = .ok ((), s') ∧
      releasedPages s.log = [] ∧ releasedPages s'.log = [0x2000] ∧
      s.ctxt.heapEnd = 0x2000 ∧ PageLayer.mapped s.pages 0x2000 = false := by
  obtain ⟨⟨v, before, ending, present⟩, t, returned, check⟩ := Prog.exists_of_check
    (s := blankTables)
    (m := do
      initHeap (pure 0x200000) 0x1000
      let v ← alloc (pure 0x201000) kmMinAllocSize 4080
      let before ← Prog.read fun s => releasedPages s.log
      let ending ← getEnd
      let present ← Prog.read fun s => PageLayer.mapped s.pages 0x2000
      free (pageFreeWith nodeAbove) v
      pure (v, before, ending, present))
    (fun r s' => decide (r.2.1 = [] ∧ releasedPages s'.log = [0x2000] ∧ r.2.2.1 = 0x2000 ∧
      r.2.2.2 = false)) (by decide +kernel)
  obtain ⟨_, s₀, new, returned⟩ := Prog.bind_eq_ok.mp returned
  obtain ⟨v', s, call, returned⟩ := Prog.bind_eq_ok.mp returned
  obtain ⟨_, _, readBefore, returned⟩ := Prog.bind_eq_ok.mp returned
  cases readBefore
  obtain ⟨_, _, readEnd, returned⟩ := Prog.bind_eq_ok.mp returned
  cases readEnd
  obtain ⟨_, _, readPresent, returned⟩ := Prog.bind_eq_ok.mp returned
  cases readPresent
  obtain ⟨_, s', release, final⟩ := Prog.bind_eq_ok.mp returned
  cases final
  obtain ⟨none, released, atPage, absent⟩ := of_decide_eq_true check
  exact ⟨v, s, t, (Prog.bind_of_ok new).trans call, release, none, released, atPage, absent⟩

end TrashOS
