import TrashOS.Lib.Tlb
import TrashOS.Page.Frames
import TrashOS.Page.Nodes
import TrashOS.Page.Trace

/-!
# The TLB and the page operations

The processor walks the tables of `page.c` and may cache what it finds.  A call
of the page layer changes the tables by the writes in its trace, and executes an
`invlpg` after some of them.  The operand of that instruction is the parameter of
the inline function, so what it drops is the page of the *stack slot* the
parameter lies in.  Where the slots are is up to the compiler and the stack:
`operand n` is the address of the slot for the `n`-th event of the trace.

* `staleAfter` — the pages a list of events leaves stale.
* `PageCall.Settles` — the condition on the state before a call under which it leaves
  none.  Before its own edit `page_free` calls `kmalloc` for a node, which maps a page at
  the end of the heap if the free list cannot serve it: `nodePages` says which one.
* `tlb_coherent_of_run` — in every run whose calls meet this condition the TLB agrees
  with the tables after every call.
* `unmap_leaves_stale` — `page_unmap` on a present page leaves its translation in
  the TLB, unless the slot lies on that very page.
-/

namespace TrashOS

/-- What the processor finds for a page: its entry, if directory and table have
it present. -/
def translation (pt : PageTables) (page : ℕ) : Option ℕ :=
  if entryPresent (pt.dir (pageGetDirIdx (page * pageSize))) then
    (pt.entryOf (page * pageSize)).filter entryPresent
  else
    none

theorem translation_congr {pt pt' : PageTables} (dir : pt'.dir = pt.dir)
    (table : pt'.table = pt.table) : translation pt' = translation pt := by
  funext page
  unfold translation PageTables.entryOf
  rw [dir, table]

/-! ## Events -/

variable (operand : ℕ → ℕ)

/-- The page that the next `invlpg` drops. -/
def droppedPage (pt : PageTables) : ℕ := operand pt.trace.length / pageSize

/-- The TLB beside a list of events: the processor fills and evicts before,
between and after them. -/
inductive MmuRun :
    PageTables → (ℕ → Option ℕ) → List TableEvent → (ℕ → Option ℕ) → Prop
  | done {pt : PageTables} {tlb tlb' : ℕ → Option ℕ}
      (cpu : Tlb.CpuRun (translation pt) tlb tlb') : MmuRun pt tlb [] tlb'
  | write {pt : PageTables} {tlb tlb₁ tlb' : ℕ → Option ℕ} {vma entry : ℕ}
      {events : List TableEvent} (cpu : Tlb.CpuRun (translation pt) tlb tlb₁)
      (rest : MmuRun ((TableEvent.write vma entry).apply pt) tlb₁ events tlb') :
      MmuRun pt tlb (.write vma entry :: events) tlb'
  | invlpg {pt : PageTables} {tlb tlb₁ tlb' : ℕ → Option ℕ} {vma : ℕ}
      {events : List TableEvent} (cpu : Tlb.CpuRun (translation pt) tlb tlb₁)
      (rest : MmuRun ((TableEvent.invlpg vma).apply pt) (Tlb.drop (droppedPage operand pt) tlb₁)
        events tlb') :
      MmuRun pt tlb (.invlpg vma :: events) tlb'

/-- The pages that are stale after a list of events. -/
def staleAfter : PageTables → (ℕ → Prop) → List TableEvent → ℕ → Prop
  | _, stale, [] => stale
  | pt, stale, .write vma entry :: events =>
      let pt' := (TableEvent.write vma entry).apply pt
      staleAfter pt' (Tlb.afterChange (translation pt) (translation pt') stale) events
  | pt, stale, .invlpg vma :: events =>
      staleAfter ((TableEvent.invlpg vma).apply pt)
        (Tlb.afterDrop (droppedPage operand pt) stale) events

variable {operand}

/-- **Beside any list of events** the TLB stays coherent off the stale pages. -/
theorem MmuRun.coherentOff {pt : PageTables} {tlb tlb' : ℕ → Option ℕ} {events : List TableEvent}
    {stale : ℕ → Prop} (run : MmuRun operand pt tlb events tlb')
    (off : Tlb.CoherentOff stale (translation pt) tlb) :
    Tlb.CoherentOff (staleAfter operand pt stale events) (translation (replay pt events)) tlb' := by
  induction run generalizing stale with
  | done cpu => exact off.cpu cpu
  | write cpu rest ih => exact ih ((off.cpu cpu).change _)
  | @invlpg pt _ _ _ vma _ cpu rest ih =>
      have same : translation ((TableEvent.invlpg vma).apply pt) = translation pt :=
        translation_congr rfl rfl
      refine ih ?_
      rw [same]
      exact (off.cpu cpu).drop _

/-- The events leave no page stale. -/
def Settles (operand : ℕ → ℕ) (pt : PageTables) (events : List TableEvent) : Prop :=
  ∀ p, ¬ staleAfter operand pt (fun _ => False) events p

/-- Events that leave no page stale leave the TLB coherent. -/
theorem MmuRun.coherent {pt : PageTables} {tlb tlb' : ℕ → Option ℕ} {events : List TableEvent}
    (run : MmuRun operand pt tlb events tlb') (settles : Settles operand pt events)
    (coherent : Tlb.Coherent (translation pt) tlb) :
    Tlb.Coherent (translation (replay pt events)) tlb' := by
  rw [← Tlb.coherentOff_iff settles]
  exact run.coherentOff ((Tlb.coherentOff_iff fun _ => id).mpr coherent)

theorem staleAfter_append (pt : PageTables) (stale : ℕ → Prop) (es es' : List TableEvent) :
    staleAfter operand pt stale (es ++ es')
      = staleAfter operand (replay pt es) (staleAfter operand pt stale es) es' := by
  induction es generalizing pt stale with
  | nil => rfl
  | cons e es ih =>
      cases e with
      | write vma entry => exact ih _ _
      | invlpg vma => exact ih _ _

/-! ## A single entry -/

/-- A change of one entry: the new entry is a function of the old one, and an
`invlpg` may follow. -/
structure Edit where
  vma : ℕ
  change : ℕ → ℕ
  flush : Bool

/-- The events of an edit that found the entry `old`. -/
def Edit.events (d : Edit) (old : ℕ) : List TableEvent :=
  .write d.vma (d.change old) :: if d.flush = true then [.invlpg d.vma] else []

/-- **When an edit leaves nothing stale**: the page was not present, or its entry
stays as it is, or the edit flushes and the slot of the parameter lies on the
page itself. -/
def Edit.Settles (operand : ℕ → ℕ) (pt : PageTables) (d : Edit) : Prop :=
  (∀ old, translation pt (d.vma / pageSize) = some old → d.change old = old) ∨
    (d.flush = true ∧ operand (pt.trace.length + 1) / pageSize = d.vma / pageSize)

section Edit

variable {pt : PageTables} {d : Edit} {v p old entry : ℕ}

theorem entryOf_page (pt : PageTables) (v : ℕ) :
    pt.entryOf (v / pageSize * pageSize) = pt.entryOf v :=
  PageTables.entryOf_congr (Nat.mul_div_cancel _ (by decide))

theorem translation_write_other (other : p ≠ v / pageSize) :
    translation (pt.write v entry) p = translation pt p := by
  unfold translation
  rw [PageTables.entryOf_write_other, PageTables.write_dir]
  rw [Nat.mul_div_cancel _ (show 0 < pageSize by decide)]
  exact other

/-- A present page after its entry was written. -/
theorem translation_write_same (before : translation pt (v / pageSize) = some old) :
    translation (pt.write v entry) (v / pageSize) =
      if entryPresent entry then some entry else none := by
  unfold translation at before ⊢
  rw [entryOf_page] at before
  rw [PageTables.entryOf_write_same (Nat.mul_div_cancel _ (by decide)), PageTables.write_dir]
  split at before
  next present =>
    rw [if_pos present]
    cases found : pt.entryOf v with
    | none =>
        rw [found] at before
        cases before
    | some e => rw [Option.map_some, Option.filter_some]
  next => cases before

theorem entryPresent_of_translation (before : translation pt p = some old) :
    entryPresent old = true := by
  unfold translation at before
  split at before
  · exact (Option.filter_eq_some_iff.mp before).2
  · cases before

/-- The page an edit makes stale. -/
theorem staleAfter_write :
    Tlb.afterChange (translation pt) (translation (pt.write v entry)) (fun _ => False) p ↔
      p = v / pageSize ∧ ∃ old, translation pt p = some old ∧ entry ≠ old := by
  unfold Tlb.afterChange
  rw [false_or]
  by_cases here : p = v / pageSize
  · subst here
    simp only [true_and]
    refine exists_congr fun old => and_congr_right fun before => ?_
    rw [translation_write_same before]
    have present := entryPresent_of_translation before
    constructor
    · rintro differs rfl
      rw [if_pos present] at differs
      exact differs rfl
    · intro differs same
      split at same
      · exact differs (Option.some.inj same)
      · cases same
  · rw [translation_write_other here]
    constructor
    · rintro ⟨e, same, differs⟩
      exact absurd same differs
    · rintro ⟨same, -⟩
      exact absurd same here

theorem Edit.settles_iff (some : pt.entryOf d.vma = some old) :
    TrashOS.Settles operand pt (d.events old) ↔ d.Settles operand pt := by
  have found : ∀ {e}, translation pt (d.vma / pageSize) = Option.some e → e = old := by
    intro e before
    unfold translation at before
    rw [entryOf_page, some] at before
    split at before
    · exact (Option.some.inj (Option.filter_eq_some_iff.mp before).1).symm
    · cases before
  have kept : (∀ e, translation pt (d.vma / pageSize) = Option.some e → d.change e = e) ↔
      ¬ ∃ e, translation pt (d.vma / pageSize) = Option.some e ∧ d.change old ≠ e := by
    rw [not_exists]
    refine forall_congr' fun e => ?_
    rw [not_and, not_not]
    refine imp_congr_right fun before => ?_
    rw [← found before]
  unfold TrashOS.Settles Edit.Settles Edit.events
  rw [kept]
  cases flush : d.flush with
  | false =>
      simp only [Bool.false_eq_true, if_false, false_and, or_false]
      change (∀ p, ¬ Tlb.afterChange (translation pt)
        (translation (pt.write d.vma (d.change old))) (fun _ => False) p) ↔ _
      constructor
      · intro none changed
        exact none _ (staleAfter_write.mpr ⟨rfl, changed⟩)
      · intro none p stale
        obtain ⟨rfl, changed⟩ := staleAfter_write.mp stale
        exact none changed
  | true =>
      simp only [if_true, true_and]
      change (∀ p, ¬ Tlb.afterDrop (operand (pt.trace.length + 1) / pageSize)
        (Tlb.afterChange (translation pt) (translation (pt.write d.vma (d.change old)))
          fun _ => False) p) ↔ _
      constructor
      · intro none
        by_contra neither
        rw [not_or, not_not] at neither
        exact none _ ⟨staleAfter_write.mpr ⟨rfl, neither.1⟩, fun same => neither.2 same.symm⟩
      · rintro settled p ⟨stale, notDropped⟩
        obtain ⟨rfl, changed⟩ := staleAfter_write.mp stale
        rcases settled with none | dropped
        · exact none changed
        · exact notDropped dropped.symm

/-- The tables an edit leads to. -/
theorem Edit.replay_table_events :
    (replay pt (d.events old)).table = (pt.write d.vma (d.change old)).table ∧
      (replay pt (d.events old)).dir = pt.dir := by
  refine ⟨?_, replay_dir _ _⟩
  unfold Edit.events
  cases d.flush <;> rfl

/-- **The condition is exact**: the edit leaves every coherent TLB coherent,
whatever the processor does, just when it settles. -/
theorem Edit.coherent_iff (some : pt.entryOf d.vma = some old) :
    (∀ tlb tlb', Tlb.Coherent (translation pt) tlb → MmuRun operand pt tlb (d.events old) tlb' →
      Tlb.Coherent (translation (replay pt (d.events old))) tlb') ↔ d.Settles operand pt := by
  rw [← d.settles_iff some]
  constructor
  · -- the TLB that holds every translation, beside a processor that does nothing
    intro keeps p stale
    have full : Tlb.Coherent (translation pt) (translation pt) := fun _ _ cached => cached
    have final : translation (replay pt (d.events old))
        = translation (pt.write d.vma (d.change old)) :=
      translation_congr Edit.replay_table_events.2 Edit.replay_table_events.1
    rw [final] at keeps
    unfold Edit.events at keeps stale
    cases flush : d.flush with
    | false =>
        simp only [flush, Bool.false_eq_true, if_false] at keeps stale
        obtain ⟨e, before, after⟩ := stale.resolve_left id
        exact after (keeps _ _ full (.write .refl (.done .refl)) p e before)
    | true =>
        simp only [flush, if_true] at keeps stale
        obtain ⟨changed, notDropped⟩ := stale
        obtain ⟨e, before, after⟩ := changed.resolve_left id
        refine after (keeps _ _ full (.write .refl (.invlpg .refl (.done .refl))) p e ?_)
        unfold Tlb.drop
        rw [Function.update_of_ne notDropped]
        exact before
  · intro settles tlb tlb' coherent run
    exact run.coherent settles coherent

end Edit

/-! ## The pages of a node -/

/-- The pages `kmalloc` maps for a node of the page list: none if the free list can serve it,
and otherwise the page that starts inside the new block, if one does. -/
def nodePages (H : Heap) : List ℕ :=
  if CanServe H pageFreeNodeSize then []
  else startsBetween H.stop (H.stop + pageFreeNodeSize + 8)

section Nodes

variable {s s' : Sys PageTables} {H : Heap} {nodes : List ℕ} {depth node : ℕ}

theorem nodePages_nodup (H : Heap) : ((nodePages H).map fun p => p / pageSize).Nodup := by
  unfold nodePages
  split
  · exact List.nodup_nil
  · exact startsBetween_pages_nodup _ _

/-- The page loop writes an entry for each page, and nothing else. -/
theorem mapEach_writes {u : Unit} :
    ∀ (pages : List ℕ) {depth : ℕ} {s s' : Sys PageTables} {P : Heap} {nodes : List ℕ},
      OpenKernel s P nodes → mapEach (pageNew depth) pages s = .ok (u, s') →
      ∃ entries : List ℕ, entries.length = pages.length ∧
        s'.pages.trace = (List.zipWith TableEvent.write pages entries).reverse ++ s.pages.trace
  | [], depth, s, s', P, nodes, _, returned => by
      cases returned
      exact ⟨[], rfl, rfl⟩
  | page :: pages, depth, s, s', P, nodes, openP, returned => by
      unfold mapEach at returned
      cases depth with
      | zero => cases returned
      | succ depth =>
          obtain ⟨pma, s₁, Q, popped, rest, run, supplied, -, new⟩ := pageNewWith_open openP
          have first : pageNew (depth + 1) s = .ok (pma, s₁) := run _
          rw [Prog.bind_of_ok first] at returned
          obtain ⟨u₂, s₂, set, returned⟩ := Prog.bind_eq_ok.mp returned
          have open₂ := supplied.openQ.setEntry set
          obtain ⟨old, -, rfl⟩ := pageSetEntry_eq_ok.mp set
          obtain ⟨entries, length, trace⟩ := mapEach_writes pages open₂ returned
          refine ⟨(pma ||| pageWrite ||| pagePresent) :: entries, congrArg (· + 1) length, ?_⟩
          rw [trace, List.zipWith_cons_cons, List.reverse_cons, List.append_assoc, ← new.trace]
          rfl

/-- **What `kmalloc` does to the page tables for a node.** -/
theorem KernelHeap.node_writes (kernel : KernelHeap s H nodes)
    (fits : ¬ CanServe H pageFreeNodeSize → H.stop + pageFreeNodeSize + 8 ≤ 2 ^ 32 - pageSize)
    (returned : kmalloc depth pageFreeNodeSize s = .ok (node, s')) :
    ∃ entries : List ℕ, entries.length = (nodePages H).length ∧ s'.pages.trace =
      (List.zipWith TableEvent.write (nodePages H) entries).reverse ++ s.pages.trace := by
  have returned : alloc (pageNew depth) kmMinAllocSize pageFreeNodeSize s = .ok (node, s') :=
    returned
  unfold nodePages
  rcases kernel.alloc_cases kmMinAllocSize (show pageFreeNodeSize + 15 < 2 ^ 32 by decide) with
    ⟨-, unsuitable, t, kernelT, touch, split⟩ | ⟨-, v, t, M, -, touch, found, split⟩
  · rw [roundBytes_node] at unsuitable split
    have full := (not_canServe_iff (by decide)).mpr (unsuitable rfl)
    have fits := fits full
    have word : H.stop + pageFreeNodeSize + 8 < 2 ^ 32 := fits.trans_lt (by decide)
    rw [if_neg full]
    rw [split] at returned
    rcases extendHeap_opens kernelT.ctx kernelT.terminal
      (align_kmMin H.stop_aligned H.bound) le_rfl H.stop_aligned word with
      ⟨-, dies⟩ | ⟨P, s₁, padded, touch₁, -, -, openP, extends_⟩
    · rw [dies] at returned
      cases returned
    rw [extends_] at returned
    obtain ⟨u, s₂, loop, returned⟩ := Prog.bind_eq_ok.mp returned
    obtain ⟨u', s₃, finish, returned⟩ := Prog.bind_eq_ok.mp returned
    cases returned
    rw [allocMapPages_eq _ (by omega) fits (length_startsBetween_lt word.le)] at loop
    obtain ⟨entries, length, trace⟩ :=
      mapEach_writes _ (kernelT.opened padded touch₁ openP) loop
    refine ⟨entries, length, ?_⟩
    rw [(allocFinish_handed finish).2, trace]
    show _ ++ s₁.pages.trace = _
    rw [touch₁.pages, touch.pages]
  · rw [roundBytes_node] at found
    rw [if_pos (found.canServe (by decide))]
    cases (split _).symm.trans returned
    exact ⟨[], rfl, congrArg PageTables.trace touch.pages⟩

/-- Writes to different pages that are not present leave nothing stale, and the other pages
as they were. -/
theorem staleAfter_writes :
    ∀ {pages entries : List ℕ} {pt : PageTables}, entries.length = pages.length →
      (∀ p ∈ pages, translation pt (p / pageSize) = none) →
      (pages.map fun p => p / pageSize).Nodup →
      (∀ q, ¬ staleAfter operand pt (fun _ => False) (List.zipWith .write pages entries) q) ∧
        ∀ q ∉ pages.map (fun p => p / pageSize),
          translation (replay pt (List.zipWith .write pages entries)) q = translation pt q
  | [], [], pt, _, _, _ => ⟨fun _ => id, fun _ _ => rfl⟩
  | page :: pages, entry :: entries, pt, length, absent, nodup => by
      obtain ⟨fresh, nodup⟩ := List.nodup_cons.mp nodup
      have none : Tlb.afterChange (translation pt) (translation (pt.write page entry))
          (fun _ => False) = fun _ => False := by
        funext q
        refine propext ⟨fun stale => ?_, False.elim⟩
        obtain ⟨rfl, old, before, -⟩ := staleAfter_write.mp stale
        rw [absent page List.mem_cons_self] at before
        cases before
      have other : ∀ q, q ≠ page / pageSize →
          translation (pt.write page entry) q = translation pt q := fun q differ =>
        translation_write_other differ
      have absent' : ∀ p ∈ pages,
          translation (pt.write page entry) (p / pageSize) = Option.none := fun p member => by
        rw [other _ fun same => fresh (List.mem_map.mpr ⟨p, member, same⟩)]
        exact absent p (List.mem_cons_of_mem _ member)
      obtain ⟨settled, kept⟩ := staleAfter_writes (Nat.succ.inj length) absent' nodup
      refine ⟨fun q stale => settled q ?_, fun q outside => ?_⟩
      · change staleAfter operand (pt.write page entry) (Tlb.afterChange (translation pt)
          (translation (pt.write page entry)) fun _ => False) _ q at stale
        rwa [none] at stale
      · rw [List.map_cons, List.mem_cons, not_or] at outside
        exact (kept q outside.2).trans (other q outside.1)

end Nodes

/-! ## Calls -/

/-- A call of the page layer. -/
inductive PageCall where
  | remap (vma pma : ℕ)
  | setEntry (vma entry : ℕ)
  | unmap (vma : ℕ)
  | delete (vma : ℕ)
  | setFlags (vma flags : ℕ)
  | free (vma : ℕ)

namespace PageCall

/-- What it executes. -/
def run (depth : ℕ) : PageCall → KM PageTables Unit
  | remap vma pma => onPages (pageRemap vma pma)
  | setEntry vma entry => pageSetEntry vma entry
  | unmap vma => onPages (pageUnmap vma)
  | delete vma => onPages (pageDelete vma)
  | setFlags vma flags => onPages (pageSetFlags vma flags)
  | free vma => pageFree depth vma

/-- The edit of the entry of its own page. -/
def edit : PageCall → Edit
  | remap vma pma => ⟨vma, fun old => old &&& 0xfff ||| pma, true⟩
  | setEntry vma entry => ⟨vma, fun _ => entry, false⟩
  | unmap vma => ⟨vma, fun old => old &&& Word32.not pagePresent, true⟩
  | delete vma => ⟨vma, fun _ => 0, true⟩
  | setFlags vma flags => ⟨vma, fun old => old >>> 12 <<< 12 ||| flags, false⟩
  | free vma => ⟨vma, fun old => old &&& Word32.not pagePresent, true⟩

/-- **When a call leaves nothing stale**, by the state before it.  Its own edit must settle.
For `page_free` the heap must be well formed, with room for the node below the top page unless
the free list can serve it; the pages that `kmalloc` maps for the node must not be present, and
the page that is freed must be neither present nor one of those, unless the slot of the last
`invlpg` lies on it. -/
def Settles (operand : ℕ → ℕ) (s : Sys PageTables) : PageCall → Prop
  | free vma => ∃ H nodes, KernelHeap s H nodes ∧
      (¬ CanServe H pageFreeNodeSize → H.stop + pageFreeNodeSize + 8 ≤ 2 ^ 32 - pageSize) ∧
      (∀ p ∈ nodePages H, translation s.pages (p / pageSize) = none) ∧
      ((translation s.pages (vma / pageSize) = none ∧
          vma / pageSize ∉ (nodePages H).map fun p => p / pageSize) ∨
        operand (s.pages.trace.length + (nodePages H).length + 1) / pageSize = vma / pageSize)
  | c => c.edit.Settles operand s.pages

theorem traced (depth : ℕ) (c : PageCall) : Traced (c.run depth) := by
  cases c with
  | remap vma pma => exact .onPages (.pageRemap _ _)
  | setEntry vma entry => exact .pageSetEntry _ _
  | unmap vma => exact .onPages (.pageUnmap _)
  | delete vma => exact .onPages (.pageDelete _)
  | setFlags vma flags => exact .onPages (.pageSetFlags _ _)
  | free vma => exact (Traced.pageLayer depth).2 vma

end PageCall

section Calls

variable {s s' : Sys PageTables} {events : List TableEvent} {d : Edit} {u : Unit}

/-- The edit was executed between `pt` and `pt'`, and nothing else was. -/
def Edited (d : Edit) (pt pt' : PageTables) : Prop :=
  ∃ old, pt.entryOf d.vma = some old ∧ pt'.trace = (d.events old).reverse ++ pt.trace

theorem updateEntry_edited {v : ℕ} {f : ℕ → ℕ} {pt pt' : PageTables}
    (returned : updateEntry v f pt = .ok (u, pt')) : Edited ⟨v, f, false⟩ pt pt' := by
  obtain ⟨old, some, rfl⟩ := updateEntry_eq_ok.mp returned
  exact ⟨old, some, rfl⟩

theorem updateEntry_invlpg_edited {v : ℕ} {f : ℕ → ℕ} {pt pt' : PageTables}
    (returned : (do updateEntry v f; invlpg v : PageM Unit) pt = .ok (u, pt')) :
    Edited ⟨v, f, true⟩ pt pt' := by
  obtain ⟨_, pt₁, update, flush⟩ := Prog.bind_eq_ok.mp returned
  obtain ⟨old, some, rfl⟩ := updateEntry_eq_ok.mp update
  cases flush
  exact ⟨old, some, rfl⟩

theorem Edited.settles {pt pt' : PageTables} (edited : Edited d pt pt')
    (settles : d.Settles operand pt) (trace : pt'.trace = events.reverse ++ pt.trace) :
    Settles operand pt events := by
  obtain ⟨old, some, found⟩ := edited
  have same : d.events old = events :=
    List.reverse_inj.mp (List.append_cancel_right (found.symm.trans trace))
  rw [← same]
  exact (d.settles_iff some).mpr settles

/-- The tail of `page_free` is the edit of `page_unmap`. -/
theorem pageFreeWith_edited {kmalloc : ℕ → KM PageTables ℕ} {vma : ℕ}
    (returned : pageFreeWith kmalloc vma s = .ok (u, s')) :
    ∃ node s₁, kmalloc pageFreeNodeSize s = .ok (node, s₁) ∧
      Edited (PageCall.free vma).edit s₁.pages s'.pages := by
  unfold pageFreeWith at returned
  obtain ⟨node, s₁, first, returned⟩ := Prog.bind_eq_ok.mp returned
  obtain ⟨pma, s₂, second, returned⟩ := Prog.bind_eq_ok.mp returned
  obtain ⟨pages, getPma, rfl⟩ := onPages_eq_ok.mp second
  obtain ⟨entry, -, -, rfl⟩ := pageGetPma_eq_ok.mp getPma
  obtain ⟨next, s₃, read, returned⟩ := Prog.bind_eq_ok.mp returned
  cases read
  obtain ⟨_, s₄, storePma, returned⟩ := Prog.bind_eq_ok.mp returned
  cases storePma
  obtain ⟨_, s₅, storeNext, returned⟩ := Prog.bind_eq_ok.mp returned
  cases storeNext
  obtain ⟨_, s₆, unmap, returned⟩ := Prog.bind_eq_ok.mp returned
  obtain ⟨pages', unmapped, rfl⟩ := onPages_eq_ok.mp unmap
  obtain ⟨_, s₇, setList, final⟩ := Prog.bind_eq_ok.mp returned
  cases setList
  cases final
  obtain ⟨old, some, trace⟩ := updateEntry_invlpg_edited unmapped
  exact ⟨node, s₁, first, old, some, trace⟩

/-- **The call of `kmalloc` in `page_free`** leaves no page stale, and then the edit of
`page_unmap` settles. -/
theorem PageCall.free_nested {vma below node : ℕ} {s₁ : Sys PageTables}
    (settles : (PageCall.free vma).Settles operand s)
    (request : kmalloc below pageFreeNodeSize s = .ok (node, s₁))
    (trace : s₁.pages.trace = events.reverse ++ s.pages.trace) :
    TrashOS.Settles operand s.pages events ∧
      (PageCall.free vma).edit.Settles operand (replay s.pages events) := by
  obtain ⟨H, nodes, kernel, fits, absent, own⟩ := settles
  obtain ⟨entries, length, writes⟩ := kernel.node_writes fits request
  obtain rfl : List.zipWith TableEvent.write (nodePages H) entries = events :=
    List.reverse_inj.mp (List.append_cancel_right (writes.symm.trans trace))
  obtain ⟨settled, kept⟩ := staleAfter_writes length absent (nodePages_nodup H)
  refine ⟨settled, ?_⟩
  rcases own with ⟨gone, outside⟩ | slot
  · refine Or.inl fun old there => ?_
    rw [show (PageCall.free vma).edit.vma = vma from rfl, kept _ outside, gone] at there
    cases there
  · refine Or.inr ⟨rfl, ?_⟩
    rw [replay_trace, List.length_append, List.length_reverse, List.length_zipWith, length,
      Nat.min_self, Nat.add_comm (nodePages H).length]
    exact slot

/-- A call that settles leaves no page stale. -/
theorem PageCall.settles_events {depth : ℕ} {c : PageCall} (settles : c.Settles operand s)
    (returned : c.run depth s = .ok (u, s'))
    (trace : s'.pages.trace = events.reverse ++ s.pages.trace) :
    TrashOS.Settles operand s.pages events := by
  cases c with
  | remap vma pma =>
      obtain ⟨pages, run, rfl⟩ := onPages_eq_ok.mp returned
      exact (updateEntry_invlpg_edited run).settles settles trace
  | setEntry vma entry =>
      obtain ⟨old, some, rfl⟩ := pageSetEntry_eq_ok.mp returned
      exact Edited.settles (d := ⟨vma, fun _ => entry, false⟩) ⟨old, some, rfl⟩ settles trace
  | unmap vma =>
      obtain ⟨pages, run, rfl⟩ := onPages_eq_ok.mp returned
      exact (updateEntry_invlpg_edited run).settles settles trace
  | delete vma =>
      obtain ⟨pages, run, rfl⟩ := onPages_eq_ok.mp returned
      exact (updateEntry_invlpg_edited run).settles settles trace
  | setFlags vma flags =>
      obtain ⟨pages, run, rfl⟩ := onPages_eq_ok.mp returned
      exact (updateEntry_edited run).settles settles trace
  | free vma =>
      cases depth with
      | zero => cases returned
      | succ below =>
          obtain ⟨node, s₁, request, old, some, tail⟩ := pageFreeWith_edited returned
          obtain ⟨first, records⟩ := Traced.alloc (Traced.pageLayer below).1 _ _ _ _ _ request
          obtain ⟨quiet, own⟩ := PageCall.free_nested settles request records.trace
          have same : first ++ (PageCall.free vma).edit.events old = events := by
            have whole : (first ++ (PageCall.free vma).edit.events old).reverse ++ s.pages.trace
                = events.reverse ++ s.pages.trace := by
              rw [List.reverse_append, List.append_assoc, ← records.trace, ← tail, trace]
            exact List.reverse_inj.mp (List.append_cancel_right whole)
          have none : staleAfter operand s.pages (fun _ => False) first = fun _ => False := by
            funext p
            exact propext ⟨fun stale => quiet p stale, False.elim⟩
          unfold TrashOS.Settles
          rw [← same, staleAfter_append, none]
          refine ((PageCall.free vma).edit.settles_iff ?_).mpr own
          unfold PageTables.entryOf at some ⊢
          rwa [← records.table]

end Calls

/-! ## Runs -/

/-- The kernel and the TLB of the processor it runs on. -/
structure Mmu where
  sys : Sys PageTables
  tlb : ℕ → Option ℕ

/-- **TLB coherence**: every cached translation agrees with the tables. -/
def Mmu.Coherent (m : Mmu) : Prop := Tlb.Coherent (translation m.sys.pages) m.tlb

/-- One step: memory accesses and other code that leaves the tables alone, or a
call of the page layer that returns.  `admits` restricts the calls. -/
inductive TlbStep (operand : ℕ → ℕ) (admits : Sys PageTables → PageCall → Prop) :
    Mmu → Mmu → Prop
  | access {s s' : Sys PageTables} {tlb tlb' : ℕ → Option ℕ}
      (table : s'.pages.table = s.pages.table) (dir : s'.pages.dir = s.pages.dir)
      (cpu : Tlb.CpuRun (translation s.pages) tlb tlb') :
      TlbStep operand admits ⟨s, tlb⟩ ⟨s', tlb'⟩
  | call {s s' : Sys PageTables} {tlb tlb' : ℕ → Option ℕ} {c : PageCall} {depth : ℕ} {u : Unit}
      {events : List TableEvent} (admitted : admits s c)
      (returned : c.run depth s = .ok (u, s'))
      (trace : s'.pages.trace = events.reverse ++ s.pages.trace)
      (mmu : MmuRun operand s.pages tlb events tlb') :
      TlbStep operand admits ⟨s, tlb⟩ ⟨s', tlb'⟩

section Runs

variable {m m' : Mmu}

/-- **One step** keeps the TLB coherent. -/
theorem TlbStep.coherent (step : TlbStep operand (PageCall.Settles operand) m m')
    (coherent : m.Coherent) : m'.Coherent := by
  cases step with
  | @access s s' tlb tlb' table dir cpu =>
      have off : Tlb.CoherentOff (fun _ => False) (translation s.pages) tlb :=
        (Tlb.coherentOff_iff fun _ => id).mpr coherent
      change Tlb.Coherent (translation s'.pages) tlb'
      rw [translation_congr dir table]
      exact (Tlb.coherentOff_iff fun _ => id).mp (off.cpu cpu)
  | @call s s' tlb tlb' c depth u events admitted returned trace mmu =>
      obtain ⟨recorded, records⟩ := c.traced depth _ _ _ returned
      have same : recorded = events :=
        List.reverse_inj.mp (List.append_cancel_right (records.trace.symm.trans trace))
      subst same
      change Tlb.Coherent (translation s'.pages) tlb'
      rw [translation_congr (records.dir.trans (replay_dir _ _).symm) records.table]
      exact mmu.coherent (PageCall.settles_events admitted returned trace) coherent

/-- **TLB coherence, while every call settles.** In every run of calls of the page layer on any
addresses, with the processor filling and evicting in between, the TLB is coherent in every state
reached.  `PageCall.Settles` is a condition on the tables, the heap and the slot of the parameter
before the call, and not on what the call does.  For the calls that edit one entry it is exact
(`Edit.coherent_iff`); `page_free` also calls `kmalloc`, which may map one page for the list
node. -/
theorem tlb_coherent_of_run (coherent : m.Coherent)
    (run : Relation.ReflTransGen (TlbStep operand (PageCall.Settles operand)) m m') :
    m'.Coherent := by
  induction run with
  | refl => exact coherent
  | tail _ step ih => exact step.coherent ih

end Runs

/-- The tables of a machine whose page `5` is present. -/
def onePage : Sys PageTables where
  mem _ := 0
  ctxt := ⟨0, 0, 0⟩
  pages :=
    { dir := fun _ => 0x1007
      table := fun idx => if idx = 0 then some fun i => if i = 5 then 0x7003 else 0 else none
      freeList := 0
      heapEndPma := 0x200000
      trace := [] }
  log := []

/-- `page_unmap` on it, beside a processor that does nothing. -/
theorem onePage_unmap (operand : ℕ → ℕ) (admits : Sys PageTables → PageCall → Prop)
    (admitted : admits onePage (.unmap 0x5000)) :
    ∃ s', s'.pages.entryOf 0x5000 = some 0x7002 ∧
      TlbStep operand admits ⟨onePage, translation onePage.pages⟩
        ⟨s', Tlb.drop (operand 1 / pageSize) (translation onePage.pages)⟩ := by
  have found : onePage.pages.entryOf 0x5000 = some 0x7003 := by decide +kernel
  have entry : 0x7003 &&& Word32.not pagePresent = 0x7002 := by decide +kernel
  have unmap := pageUnmap_eq_ok (u := ()).mpr ⟨_, found, rfl⟩
  rw [entry] at unmap
  have mmu : MmuRun operand onePage.pages (translation onePage.pages)
      [.write 0x5000 0x7002, .invlpg 0x5000]
      (Tlb.drop (operand 1 / pageSize) (translation onePage.pages)) :=
    .write .refl (.invlpg .refl (.done .refl))
  have returned : (PageCall.unmap 0x5000).run 0 onePage = .ok ((), _) :=
    onPages_eq_ok.mpr ⟨_, unmap, rfl⟩
  refine ⟨_, ?_, .call admitted returned ?_ mmu⟩
  · exact (PageTables.entryOf_write_same rfl).trans (by rw [found, Option.map_some])
  · rfl

/-- With the slot on the page it unmaps, `page_unmap` drops it: the TLB holds the page
before the call and the processor walks to no page after it. -/
theorem tlb_coherent_of_lucky_slot :
    ∃ m m' : Mmu, m.sys = onePage ∧ m.tlb 5 = some 0x7003 ∧
      Relation.ReflTransGen (TlbStep (fun _ => 0x5ff0) (PageCall.Settles fun _ => 0x5ff0)) m m' ∧
      m'.sys.pages.entryOf 0x5000 = some 0x7002 ∧ m'.tlb 5 = none ∧ m'.Coherent := by
  obtain ⟨s', entry, step⟩ := onePage_unmap (fun _ => 0x5ff0) (PageCall.Settles fun _ => 0x5ff0)
    (Or.inr ⟨rfl, rfl⟩)
  have cached : translation onePage.pages 5 = some 0x7003 := by decide +kernel
  have dropped : Tlb.drop (0x5ff0 / pageSize) (translation onePage.pages) 5 = none := by
    decide +kernel
  have full : Mmu.Coherent ⟨onePage, translation onePage.pages⟩ := fun _ _ found => found
  exact ⟨_, _, rfl, cached, .single step, entry, dropped,
    tlb_coherent_of_run full (.single step)⟩

/-- **`page_unmap` leaves the page in the TLB** when the slot lies elsewhere, as it
does on the kernel stack. -/
theorem unmap_leaves_stale :
    ∃ m m' : Mmu, m.sys = onePage ∧ m.Coherent ∧
      TlbStep (fun _ => 0xfffffff0) (fun _ c => c = .unmap 0x5000) m m' ∧
      m'.tlb 5 = some 0x7003 ∧ m'.sys.pages.entryOf 0x5000 = some 0x7002 ∧ ¬ m'.Coherent := by
  obtain ⟨s', entry, step⟩ := onePage_unmap (fun _ => 0xfffffff0)
    (fun _ c => c = .unmap 0x5000) rfl
  have cached : Tlb.drop (0xfffffff0 / pageSize) (translation onePage.pages) 5 = some 0x7003 := by
    decide +kernel
  refine ⟨_, _, rfl, fun _ _ cached => cached, step, cached, entry, fun coherent => ?_⟩
  have agrees := coherent 5 0x7003 cached
  unfold translation at agrees
  split at agrees
  · change (s'.pages.entryOf 0x5000).filter _ = _ at agrees
    rw [entry] at agrees
    exact absurd agrees (by decide +kernel)
  · cases agrees

end TrashOS
