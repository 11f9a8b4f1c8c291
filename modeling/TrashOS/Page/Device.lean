import TrashOS.Page.Frames
import TrashOS.Page.Hold
import TrashOS.Page.KernelTables

/-!
# The page of the local APIC

`apic_init` asks `kalloc` for a page with a supplier of its own: `lvt_get_page_pma` first
hands over the physical address of the registers, and then what `page_new` returns.

* `frames_in_order_iff` — with either supplier the pages of a block lead to what it handed
  over, in this order, unless the end of the block wraps around; then no page is mapped at
  all (`wrapped_block_has_no_frames`).
* `KernelClient.device` — the heap is as well formed as after any other call.
* `lapic_of_boot` — so the page leads to the registers for as long as nobody frees it.
-/

namespace TrashOS

section Order

variable {s s' : Sys PageTables} {H : Heap} {nodes : List ℕ} {n : ℕ}

/-- **A page-aligned block is mapped in the order of its supplier if and only if it ends, with its
descriptor, below `2 ^ 32`.** The block `apic_init` asks for starts with the local APIC: as long
as the flag of its supplier is set, the first page is the one of the device, and only the pages
behind it come from `page_new`.  The page list need not be empty, so the nested `kfree` may free
its nodes while the block is being mapped. -/
theorem frames_in_order_iff (kernel : KernelHeap s H nodes) (below : H.stop ≤ 2 ^ 32 - pageSize)
    (pos : 0 < n) :
    (Frames H.first [] s nodes →
      ∀ depth v s', kalloc (depth + 1) pageSize (n * pageSize % 2 ^ 32) s = .ok (v, s') →
        (InOrder s s' n v ↔ BlockFits H n)) ∧
    ∀ statics : LapicStatics, statics.firstRun < H.first → statics.basePma ≠ statics.firstRun →
      Frames H.first [statics.basePma] s nodes →
      ∀ depth v s',
        alloc (lvtGetPagePma statics (depth + 1)) pageSize (n * pageSize % 2 ^ 32) s = .ok (v, s') →
        (InOrder s s' n v ↔ BlockFits H n) ∧
        (s.mem statics.firstRun ≠ 0 → BlockFits H n →
          ∃ entry, s'.pages.entryOf v = some entry ∧ entryPresent entry = true ∧
            entry &&& Word32.not 0xfff = s.mem statics.basePma) := by
  refine ⟨fun frames depth v s' returned => ?_,
    fun statics firstRun differ frames depth v s' returned => ⟨?_, fun first fits => ?_⟩⟩
  · exact inOrder_iff_of_hands (pageNew_frames _ _ depth) kernel frames below pos returned
  · exact inOrder_iff_of_hands (lvtGetPagePma_frames statics H.first depth firstRun differ) kernel
      frames below pos returned
  · exact lvtGetPagePma_block kernel below pos firstRun differ frames fits first returned

end Order

section Supplier

variable {s s' : Sys PageTables} {H : Heap} {nodes statics : List ℕ} {live : List Chunk}
  {getPagePma : KM PageTables ℕ} {b v first : ℕ}

/-- `lvt_get_page_pma` is a supplier of the kernel. -/
theorem lvtGetPagePma_supplies (statics : LapicStatics) (first depth : ℕ)
    (below : statics.firstRun < first) (differ : statics.basePma ≠ statics.firstRun) :
    Supplies first (lvtGetPagePma statics (depth + 1)) := by
  intro s P nodes same openP
  by_cases firstRun : s.mem statics.firstRun = 0
  · obtain ⟨pma, s', Q, popped, rest, run, supplied, table⟩ := pageNew_supplies first depth
      (s.loaded statics.firstRun) P nodes same (openP.congr rfl rfl rfl)
    refine ⟨pma, s', Q, popped, rest, ?_,
      ⟨supplied.openQ, supplied.nodes, supplied.heaps, supplied.heapEnd⟩, table⟩
    unfold lvtGetPagePma
    rw [Prog.bind_of_ok rfl, if_neg (not_not_intro firstRun)]
    exact run
  · obtain ⟨es, run, -⟩ := lvtGetPagePma_first statics (depth + 1) _ firstRun differ rfl
    have openS := openP.storeBelow (v := 0) (same ▸ below)
    exact ⟨_, _, P, [], nodes, run, ⟨openS.congr rfl rfl rfl, rfl, Popped.refl P, rfl⟩, rfl⟩

/-- Only the pages of an extension get new entries. -/
theorem extendHeap_others (hands : HandsFrames H.first statics getPagePma)
    (kernel : KernelHeap s H nodes) (frames : Frames H.first statics s nodes)
    (below : H.stop ≤ 2 ^ 32 - pageSize)
    (fits : alignedEnd H.stop pageSize + b + 8 ≤ 2 ^ 32 - pageSize)
    (returned : extendHeap getPagePma pageSize b s = .ok (v, s')) {w : ℕ}
    (other : w / pageSize ∉ (startsBetween (alignedEnd H.stop pageSize)
      (alignedEnd H.stop pageSize + b + 8)).map fun p => p / pageSize) :
    s'.pages.entryOf w = s.pages.entryOf w := by
  obtain ⟨multiple, le, last⟩ := alignedEnd_page below
  generalize target_eq : alignedEnd H.stop pageSize = target at *
  have aligned : align H.stop pageSize = target := (align_page_eq below).trans target_eq
  have mult : target % 8 = 0 := by
    unfold pageSize at multiple
    omega
  have word : target + b + 8 < 2 ^ 32 := by
    unfold pageSize at fits
    omega
  rcases extendHeap_opens kernel.ctx kernel.terminal aligned le mult word with
    ⟨-, dies⟩ | ⟨P, s₁, padded, touch, -, -, openP, split⟩
  · rw [dies] at returned
    cases returned
  rw [split] at returned
  obtain ⟨u, s₂, loop, returned⟩ := Prog.bind_eq_ok.mp returned
  obtain ⟨u', s₃, finish, returned⟩ := Prog.bind_eq_ok.mp returned
  cases returned
  rw [allocMapPages_eq getPagePma (by omega) fits (length_startsBetween_lt word.le)] at loop
  obtain ⟨pmas, -, -, -, others, -⟩ := mapEach_frames hands _ padded.first
    (kernel.opened padded touch openP)
    ((frames.touch touch le_rfl kernel.live).congr rfl rfl) (startsBetween_pages_nodup _ _) loop
  obtain ⟨-, pages⟩ := allocFinish_handed finish
  rw [pages, others w other]
  show s₁.pages.entryOf w = _
  rw [touch.pages]

/-- The page loop with any supplier returns, where every page has a table. -/
theorem mapEach_supplied (supplies : Supplies first getPagePma) :
    ∀ (pages : List ℕ) {s : Sys PageTables} {P : Heap} {nodes : List ℕ}, P.first = first →
      OpenKernel s P nodes → (∀ p ∈ pages, (s.pages.entryOf p).isSome) →
      ∃ u s' Q popped rest, mapEach getPagePma pages s = .ok (u, s') ∧
        Supplied s P nodes s' Q popped rest
  | [], s, P, nodes, _, openP, _ => ⟨(), s, P, [], nodes, rfl, Supplied.refl openP⟩
  | page :: pages, s, P, nodes, same, openP, tables => by
      obtain ⟨pma, s₁, Q, popped, rest, run, supplied, table⟩ := supplies s P nodes same openP
      have there₁ : ∀ p, s₁.pages.entryOf p = s.pages.entryOf p := fun p => by
        unfold PageTables.entryOf
        rw [table]
      obtain ⟨old, there⟩ := Option.isSome_iff_exists.mp (tables page List.mem_cons_self)
      obtain ⟨s₂, set, written, ctxt⟩ : ∃ s₂,
          pageSetEntry page (pma ||| pageWrite ||| pagePresent) s₁ = .ok ((), s₂) ∧
            s₂.pages = s₁.pages.write page (pma ||| pageWrite ||| pagePresent) ∧
            s₂.ctxt = s₁.ctxt :=
        ⟨_, pageSetEntry_eq_ok.mpr ⟨old, (there₁ page).trans there, rfl⟩, rfl, rfl⟩
      have open₂ := supplied.openQ.setEntry set
      have tables₂ : ∀ p ∈ pages, (s₂.pages.entryOf p).isSome := fun p member => by
        rw [written, PageTables.entryOf_write_isSome, there₁]
        exact tables p (List.mem_cons_of_mem _ member)
      obtain ⟨u, s', R, later, rest', loop, final⟩ := mapEach_supplied supplies pages
        (supplied.heaps.first.trans same) open₂ tables₂
      refine ⟨u, s', R, popped ++ later, rest', ?_, ?_⟩
      · unfold mapEach
        rw [Prog.bind_of_ok run, Prog.bind_of_ok set]
        exact loop
      · exact supplied.trans
          ⟨final.openQ, final.nodes, final.heaps, final.heapEnd.trans (congrArg _ ctxt)⟩

/-- The extension of the kernel heap by a page-aligned block returns, whoever supplies the
pages, unless its padding has room for a descriptor only. -/
theorem extendHeap_device (supplies : Supplies H.first getPagePma)
    (memory : KernelMemory s H nodes) (pos : 0 < b) (mult : b % 8 = 0)
    (notEight : alignedEnd H.stop pageSize ≠ H.stop + 8)
    (fits : alignedEnd H.stop pageSize + b + 8 ≤ 2 ^ 32 - pageSize) :
    ∃ s', extendHeap getPagePma pageSize b s = .ok (alignedEnd H.stop pageSize, s') := by
  obtain ⟨multiple, le, last⟩ := alignedEnd_page memory.below
  have low := H.first_le_stop
  generalize target_eq : alignedEnd H.stop pageSize = target at *
  have aligned : align H.stop pageSize = target := (align_page_eq memory.below).trans target_eq
  have multT : target % 8 = 0 := by
    unfold pageSize at multiple
    omega
  have word : target + b + 8 < 2 ^ 32 := by
    unfold pageSize at fits
    omega
  rcases extendHeap_opens memory.heap.ctx memory.heap.terminal aligned le multT word with
    ⟨eight, -⟩ | ⟨P, s₁, padded, touch, -, -, openP, split⟩
  · exact absurd eight notEight
  have tables : ∀ p ∈ startsBetween target (target + b + 8), (s₁.pages.entryOf p).isSome := by
    intro p member
    obtain ⟨-, lower, upper⟩ := mem_startsBetween.mp member
    rw [touch.pages]
    exact memory.tables p (by omega) (by omega)
  obtain ⟨u, s₂, Q, popped, rest, loop, supplied⟩ := mapEach_supplied supplies
    (startsBetween target (target + b + 8)) padded.first (memory.heap.opened padded touch openP)
    tables
  have stopQ : Q.stop = target := supplied.heaps.stop.trans padded.stop
  subst stopQ
  obtain ⟨s₃, finish, -, -⟩ := supplied.openQ.heap.finish pos mult word supplied.heapEnd
    (fun _ kept => kept : KeepsLive Q Q.Live)
  refine ⟨s₃, ?_⟩
  rw [split, allocMapPages_eq getPagePma (by omega) fits (length_startsBetween_lt word.le),
    Prog.bind_of_ok loop, Prog.bind_of_ok finish.1]
  rfl

/-- **A page-aligned block with frames from any supplier** leaves a well-formed kernel
memory, in which other pages have the entries they had. -/
theorem KernelClient.device (client : KernelClient ⟨s, live⟩ H nodes)
    (supplies : Supplies H.first getPagePma) (hands : HandsFrames H.first statics getPagePma)
    (frames : Frames H.first statics s nodes) {bytes : ℕ}
    (suffices_ : SpaceSuffices s pageSize bytes)
    (returned : alloc getPagePma pageSize bytes s = .ok (v, s')) :
    ∃ M rest, KernelClient ⟨s', ⟨v, roundBytes bytes, false⟩ :: live⟩ M rest := by
  have memory := client.memory
  obtain ⟨request, fits⟩ := suffices_
  rw [memory.heap.ctx.atEnd] at fits
  obtain ⟨pos, mult, -, -⟩ := roundBytes_spec request
  obtain ⟨multiple, le, last⟩ := alignedEnd_page memory.below
  have word : alignedEnd H.stop pageSize + roundBytes bytes + 8 < 2 ^ 32 := by
    unfold pageSize at fits ⊢
    omega
  change extendHeap getPagePma pageSize (roundBytes bytes) s = _ at returned
  generalize roundBytes bytes = b at *
  have others : ∀ w, _ → s'.pages.entryOf w = s.pages.entryOf w := fun w other =>
    extendHeap_others hands memory.heap frames memory.below fits returned other
  obtain ⟨rfl, pmas, -, length, mapped, -⟩ :=
    extendHeap_frames hands memory.heap frames memory.below word returned
  obtain ⟨M, popped, rest, split, heap, -, extension⟩ := supplies.extendHeap_returned memory.heap
    (align_page_eq memory.below) le (by unfold pageSize at multiple ⊢; omega) pos mult word returned
  have entry : ∀ p ∈ startsBetween (alignedEnd H.stop pageSize)
      (alignedEnd H.stop pageSize + b + 8), ∃ pma,
        s'.pages.entryOf p = some (pma ||| pageWrite ||| pagePresent) := by
    intro p member
    obtain ⟨k, inside⟩ := List.mem_iff_getElem?.mp member
    obtain ⟨pma, -, -, there⟩ := mapped k p inside
    exact ⟨pma, there⟩
  refine ⟨M, rest, ⟨heap, extension.stop ▸ fits, fun p start lower upper => ?_,
    fun w lower high => ?_⟩, extension.live_rest (split ▸ client.live)⟩
  · rw [extension.first] at lower
    rw [extension.stop] at upper
    by_cases old : p < alignedEnd H.stop pageSize
    · have before := memory.present p start lower (PageAlignment.page.near start old)
      have same := others p (not_page_of_lt fun q member => by
        obtain ⟨multiple, lower, -⟩ := mem_startsBetween.mp member
        exact ⟨multiple, by omega⟩)
      rw [PageTables.mapped_iff, same, ← PageTables.mapped_iff]
      exact before
    · obtain ⟨pma, there⟩ := entry p
        (mem_startsBetween.mpr ⟨start, Nat.le_of_not_lt old, upper⟩)
      exact PageTables.mapped_iff.mpr ⟨_, there, entryPresent_or pma⟩
  · by_cases new : w / pageSize ∈ (startsBetween (alignedEnd H.stop pageSize)
      (alignedEnd H.stop pageSize + b + 8)).map fun p => p / pageSize
    · obtain ⟨p, member, same⟩ := List.mem_map.mp new
      obtain ⟨pma, there⟩ := entry p member
      rw [PageTables.entryOf_congr same.symm, there]
      rfl
    · rw [others w new]
      exact memory.tables w (extension.first ▸ lower) high

end Supplier

/-- A call on the kernel heap that leaves the block `c` in use. -/
def StepAround (c : Chunk) (w w' : Client PageTables) : Prop :=
  KernelStep NodesRoom w w' ∧ c ∈ w'.live

section Later

variable {w w' : Client PageTables} {H : Heap} {nodes : List ℕ} {c : Chunk} {a : ℕ}

/-- **A page of a block keeps its entry in every run that leaves the block in use.** -/
theorem entryOf_of_run (client : KernelClient w H nodes) (member : c ∈ w.live)
    (inside : a < c.stop) (run : Relation.ReflTransGen (StepAround c) w w') :
    c ∈ w'.live ∧ (∃ M rest, KernelClient w' M rest) ∧
      w'.sys.pages.entryOf a = w.sys.pages.entryOf a := by
  induction run with
  | refl => exact ⟨member, ⟨H, nodes, client⟩, rfl⟩
  | tail _ step ih =>
      obtain ⟨member₁, ⟨P, nodes₁, client₁⟩, same⟩ := ih
      obtain ⟨M, rest, outcome, client'⟩ := step.1.outcome (fun admitted => admitted) client₁
      exact ⟨step.2, ⟨M, rest, client'⟩,
        (outcome.entryOf_kept client' client₁ member₁ step.2 inside).trans same⟩

end Later

/-! ## From boot -/

/-- The end of `apic_init`: the physical address of the registers from the base in the MSR,
and the page for them. -/
def apicInit (statics : LapicStatics) (depth base : ℕ) : KM PageTables ℕ := do
  store statics.basePma (Word32.mul base pageSize)
  alloc (lvtGetPagePma statics depth) pageSize pageSize

/-- The static variables of `apic.c` lie below the heap, and the first call of
`lvt_get_page_pma` is yet to come. -/
structure LapicStatics.Ready (statics : LapicStatics) (s : Sys PageTables) : Prop where
  firstRunBelow : statics.firstRun < align s.ctxt.start kmMinAllocSize
  basePmaBelow : statics.basePma < align s.ctxt.start kmMinAllocSize
  differ : statics.basePma ≠ statics.firstRun
  firstRun : s.mem statics.firstRun ≠ 0

section Init

variable {s s₀ : Sys PageTables} {H : Heap} {live : List Chunk} {region : InitRegion}
  {contents : ℕ → ℕ → ℕ} {a x : ℕ}

/-- The address of the registers is that of a page. -/
theorem isFrame_base (base : ℕ) : IsFrame (Word32.mul base pageSize) := by
  unfold Word32.mul pageSize
  constructor
  · unfold pageSize
    omega
  · omega

/-- A store to a static variable leaves the kernel memory well formed. -/
theorem KernelClient.storeBelow {nodes : List ℕ} (client : KernelClient ⟨s, live⟩ H nodes)
    (below : a < H.first) : KernelClient ⟨s.stored a x, live⟩ H nodes := by
  obtain ⟨⟨⟨⟨rep, start, atEnd, closed⟩, terminal, list, inUse⟩, upTo, present, tables⟩, chunks⟩ :=
    client
  have other : ∀ w, H.first ≤ w → (s.stored a x).mem w = s.mem w := by
    intro w le
    exact Function.update_of_ne (by omega) _ _
  have firstLe := H.first_le_stop
  refine ⟨⟨⟨⟨rep.congr (other _ le_rfl) (fun c memC => ?_) (fun c memC _ => ?_) rfl, start, atEnd,
    closed⟩, fun nonempty => ?_, ?_, inUse⟩, upTo, present, tables⟩, chunks⟩
  · have range := H.range memC
    exact ⟨other _ (by omega), other _ (by omega)⟩
  · have range := H.range memC
    exact ⟨other _ (by omega), other _ (by omega)⟩
  · unfold TerminalClear
    rw [other _ (by omega)]
    exact terminal nonempty
  · refine PointerList.Singly.congr list fun n member => other _ ?_
    have range := H.range (inUse n member).1
    unfold nodeChunk at range
    dsimp only at range
    omega

/-- With `lapic_base_pma` set, it holds a frame too. -/
theorem Frames.storeBelow {nodes : List ℕ} (client : KernelClient ⟨s, live⟩ H nodes)
    (frames : Frames H.first [] s nodes) (below : a < H.first) (frame : IsFrame x) :
    Frames H.first [a] (s.stored a x) nodes where
  next := frames.next
  listed n member := by
    have range := H.range (client.memory.heap.live n member).1
    unfold nodeChunk at range
    dsimp only at range
    rw [stored_mem, Function.update_of_ne (by omega)]
    exact frames.listed n member
  static b member := by
    obtain rfl := List.mem_singleton.mp member
    refine ⟨below, ?_⟩
    rw [stored_mem, Function.update_self]
    exact frame

/-- The first `kalloc` with `lvt_get_page_pma` returns a page with the frame that
`lapic_base_pma` names. -/
theorem alloc_lapic {nodes : List ℕ} {statics : LapicStatics}
    (client : KernelClient ⟨s, live⟩ H nodes) (below : statics.firstRun < H.first)
    (differ : statics.basePma ≠ statics.firstRun)
    (frames : Frames H.first [statics.basePma] s nodes)
    (firstRun : s.mem statics.firstRun ≠ 0) (suffices_ : SpaceSuffices s pageSize pageSize)
    (notEight : alignedEnd s.ctxt.heapEnd pageSize ≠ s.ctxt.heapEnd + 8) (depth : ℕ) :
    ∃ v s', alloc (lvtGetPagePma statics (depth + 1)) pageSize pageSize s = .ok (v, s') ∧
      (∃ M rest, KernelClient ⟨s', ⟨v, pageSize, false⟩ :: live⟩ M rest) ∧
      ∃ entry, s'.pages.entryOf v = some entry ∧ entryPresent entry = true ∧
        entry &&& Word32.not 0xfff = s.mem statics.basePma := by
  have supplies := lvtGetPagePma_supplies statics H.first depth below differ
  have hands := lvtGetPagePma_frames statics H.first depth below differ
  have last := suffices_.2
  rw [client.memory.heap.ctx.atEnd, roundBytes_page] at last
  rw [client.memory.heap.ctx.atEnd] at notEight
  obtain ⟨s', extends_⟩ :=
    extendHeap_device supplies client.memory (by decide) (by decide) notEight last
  have returned : alloc (lvtGetPagePma statics (depth + 1)) pageSize pageSize s =
      .ok (alignedEnd H.stop pageSize, s') := by
    change extendHeap _ pageSize (roundBytes pageSize) s = _
    rw [roundBytes_page]
    exact extends_
  obtain ⟨M, rest, later⟩ := client.device supplies hands frames suffices_ returned
  rw [roundBytes_page] at later
  have fits : BlockFits H 1 := by
    unfold BlockFits chunkDescSize
    unfold pageSize at *
    omega
  exact ⟨_, s', returned, ⟨M, rest, later⟩, lvtGetPagePma_block (n := 1) client.memory.heap
    client.memory.below Nat.one_pos below differ frames fits firstRun returned⟩

/-- **`apic_init` maps the registers**, on every kernel heap with room for the page, unless
the padding before it has room for a descriptor only; and the page keeps their address in
every later run of calls that do not free it. -/
theorem apicInit_maps {nodes : List ℕ} (client : KernelClient ⟨s, live⟩ H nodes)
    (frames : Frames H.first [] s nodes) {statics : LapicStatics} (ready : statics.Ready s)
    (suffices_ : SpaceSuffices s pageSize pageSize)
    (notEight : alignedEnd s.ctxt.heapEnd pageSize ≠ s.ctxt.heapEnd + 8) (depth base : ℕ) :
    ∃ v s', apicInit statics (depth + 1) base s = .ok (v, s') ∧
      ∀ w, Relation.ReflTransGen (StepAround ⟨v, pageSize, false⟩)
          ⟨s', ⟨v, pageSize, false⟩ :: live⟩ w →
        (∃ M rest, KernelClient w M rest) ∧
          ∃ entry, w.sys.pages.entryOf v = some entry ∧ entryPresent entry = true ∧
            entry &&& Word32.not 0xfff = Word32.mul base pageSize := by
  obtain ⟨firstRunBelow, basePmaBelow, differ, firstRun⟩ := ready
  rw [← client.memory.heap.ctx.start] at firstRunBelow basePmaBelow
  have flag : (s.stored statics.basePma (Word32.mul base pageSize)).mem statics.firstRun ≠ 0 := by
    rw [stored_mem, Function.update_of_ne differ.symm]
    exact firstRun
  obtain ⟨v, s', returned, ⟨M, rest, after⟩, entry, there, present, frame⟩ :=
    alloc_lapic (client.storeBelow basePmaBelow) firstRunBelow differ
      (frames.storeBelow client basePmaBelow (isFrame_base base)) flag suffices_ notEight depth
  rw [stored_mem, Function.update_self] at frame
  refine ⟨v, s', (Prog.bind_of_ok rfl).trans returned, fun w steps => ?_⟩
  have inside : v < (⟨v, pageSize, false⟩ : Chunk).stop := by
    unfold Chunk.stop pageSize
    dsimp only
    omega
  obtain ⟨-, kept, same⟩ := entryOf_of_run after List.mem_cons_self inside steps
  exact ⟨kept, entry, same.trans there, present, frame⟩

/-- **The registers of the local APIC stay mapped.** After `page_init_cleanup` and any calls on
the kernel heap, `apic_init` maps the page at the base that the MSR names, unless the padding
before it has room for a descriptor only, and whatever is allocated and freed from then on, the
page still leads there.  `Ready` says that the static variables of `apic.c` lie below the heap and
that its supplier was not called yet.  The frame of the device did not come from `page_new`; what
keeps it is the block around its page, for as long as nobody frees that (`StepAround`). -/
theorem lapic_of_boot (boot : BootTables region s₀) (fits : region.Fits)
    (frames : BootFrames region contents s₀) :
    ∃ s made, (∀ depth, pageInitCleanup (depth + 2) contents region s₀ = .ok ((), s)) ∧
      (∃ H nodes, KernelClient ⟨s, made⟩ H nodes) ∧
      ∀ w, Relation.ReflTransGen (KernelStep SafeFree) ⟨s, made⟩ w → NextKept w.sys.log →
        ∀ statics : LapicStatics, statics.Ready w.sys → SpaceSuffices w.sys pageSize pageSize →
          alignedEnd w.sys.ctxt.heapEnd pageSize ≠ w.sys.ctxt.heapEnd + 8 →
          ∀ depth base, ∃ v s', apicInit statics (depth + 1) base w.sys = .ok (v, s') ∧
            ∀ w', Relation.ReflTransGen (StepAround ⟨v, pageSize, false⟩)
                ⟨s', ⟨v, pageSize, false⟩ :: w.live⟩ w' →
              (∃ M rest, KernelClient w' M rest) ∧
                ∃ entry, w'.sys.pages.entryOf v = some entry ∧ entryPresent entry = true ∧
                  entry &&& Word32.not 0xfff = Word32.mul base pageSize := by
  obtain ⟨s, made, H, nodes, runs, -, owned⟩ := ownedClient_of_boot boot fits frames
  refine ⟨s, made, runs, ⟨H, nodes, owned.client⟩,
    fun w run kept statics ready suffices_ notEight depth base => ?_⟩
  obtain ⟨M, rest, ownedW⟩ := ownedClient_of_run owned run
  have once := ownedW.owned kept
  exact apicInit_maps ownedW.client ⟨once.next, once.listed, fun _ none =>
    absurd none List.not_mem_nil⟩ ready suffices_ notEight depth base

end Init

/-! ## A small kernel with a local APIC -/

/-- The variables of `apic.c` in the `.data` of the small kernel. -/
def smallStatics : LapicStatics := ⟨0xE0000800, 0xE0000804⟩

/-- **The frames of the small kernel.**  Three pages from `page_new`, and three pages of which
the first is that of the local APIC, once `lapic_base_pma` is set. -/
theorem frames_in_order_of_small_kernel :
    ∃ s made s' t', SmallBooted smallBoot s made ∧
      kalloc 1 pageSize 0x3000 s = .ok (0xE0113000, s') ∧ InOrder s s' 3 0xE0113000 ∧
      alloc (lvtGetPagePma smallStatics 1) pageSize 0x3000
        (s.stored smallStatics.basePma 0xFEE00000) = .ok (0xE0113000, t') ∧
      InOrder (s.stored smallStatics.basePma 0xFEE00000) t' 3 0xE0113000 ∧
      ∃ entry, t'.pages.entryOf 0xE0113000 = some entry ∧ entryPresent entry = true ∧
        entry &&& Word32.not 0xfff = 0xFEE00000 := by
  obtain ⟨s, made, booted, heapEnd, start, -, firstRun, kept⟩ := smallBoot_booted
  obtain ⟨H, nodes, owned⟩ := booted.owned
  have memory := owned.client.memory
  have once := owned.owned kept
  have first : H.first = 0xE0016000 := by
    rw [memory.heap.ctx.start, start]
    decide +kernel
  have stop : H.stop = 0xE0112008 := memory.heap.ctx.atEnd.symm.trans heapEnd
  have target : alignedEnd H.stop pageSize = 0xE0113000 := by
    rw [stop]
    decide
  have below : smallStatics.firstRun < H.first ∧ smallStatics.basePma < H.first := by
    rw [first]
    decide
  have differ : smallStatics.basePma ≠ smallStatics.firstRun := by decide
  have fits : BlockFits H 3 := by
    unfold BlockFits
    rw [target]
    decide
  have frames : Frames H.first [] s nodes :=
    ⟨once.next, once.listed, fun _ none => absurd none List.not_mem_nil⟩
  -- with the base stored
  have client := owned.client.storeBelow (x := 0xFEE00000) below.2
  have lapicFrames := frames.storeBelow (x := 0xFEE00000) owned.client below.2
    ⟨by decide, by decide⟩
  have returns : ∀ {supplier t}, Supplies H.first supplier → KernelMemory t H nodes →
      ∃ t', alloc supplier pageSize 0x3000 t = .ok (0xE0113000, t') := fun supplies memory => by
    obtain ⟨t', run⟩ := extendHeap_device supplies memory (b := roundBytes 0x3000)
      (by decide +kernel) (by decide +kernel) (by rw [target, stop]; decide)
      (by rw [target]; decide +kernel)
    rw [target] at run
    exact ⟨t', run⟩
  obtain ⟨s', returned⟩ := returns (pageNew_supplies H.first 0) memory
  obtain ⟨t', returned'⟩ := returns (lvtGetPagePma_supplies smallStatics H.first 0 below.1 differ)
    client.memory
  have news := (frames_in_order_iff memory.heap memory.below (n := 3) (by decide)).1 frames 0 _ s'
    returned
  obtain ⟨ordered, head⟩ := (frames_in_order_iff client.memory.heap client.memory.below (n := 3)
    (by decide)).2 smallStatics below.1 differ lapicFrames 0 _ t' returned'
  have flag : (s.stored smallStatics.basePma 0xFEE00000).mem smallStatics.firstRun ≠ 0 := by
    rw [stored_mem, Function.update_of_ne differ.symm]
    exact firstRun.trans_ne Nat.one_ne_zero
  have base := head flag fits
  rw [stored_mem, Function.update_self] at base
  exact ⟨s, made, s', t', booted, returned, news.mpr fits, returned', ordered.mpr fits, base⟩

/-- **A block that wraps around has no frames.**  On the heap of the small kernel a request for
`0xFFFFF` pages returns the block `0xE0113000`: the bound of its page loop is below its first
page, so no page is mapped, and all that is accessed lies on pages that are present. -/
theorem wrapped_block_has_no_frames :
    ∃ s made H nodes s', SmallBooted smallBoot s made ∧ KernelHeap s H nodes ∧
      H.stop ≤ 2 ^ 32 - pageSize ∧ Frames H.first [] s nodes ∧
      kalloc 1 pageSize (0xFFFFF * pageSize) s = .ok (0xE0113000, s') ∧
      (∀ a, .load a false ∉ s'.log ∧ .store a false ∉ s'.log) ∧
      ¬ InOrder s s' 0xFFFFF 0xE0113000 := by
  obtain ⟨s, made, ⟨heapEnd, kept⟩, s', booted, returned, check⟩ :=
    smallBooted_of_check (k := smallBoot) rfl rfl
    (m := do
      let before ← Prog.read fun s => (s.ctxt.heapEnd, nextKept s.log)
      let v ← kalloc 1 pageSize (0xFFFFF * pageSize)
      if v = 0xE0113000 then pure before else Prog.stop .fuel)
    (fun before s => decide (before.1 = 0xE0112008 ∧ before.2 = true) && s.log.all fun
      | .load _ mapped => mapped
      | .store _ mapped => mapped
      | _ => true) (by decide +kernel)
  obtain ⟨_, _, read, returned⟩ := Prog.bind_eq_ok.mp returned
  cases read
  obtain ⟨v, _, returned, final⟩ := Prog.bind_eq_ok.mp returned
  split at final
  on_goal 2 => cases final
  next block =>
  cases final
  subst block
  obtain ⟨before, mapped⟩ := Bool.and_eq_true_iff.mp check
  obtain ⟨heapEnd, kept⟩ := of_decide_eq_true before
  obtain ⟨H, nodes, owned⟩ := booted.owned
  have memory := owned.client.memory
  have once := owned.owned (nextKept_of_check kept)
  have frames : Frames H.first [] s nodes :=
    ⟨once.next, once.listed, fun _ none => absurd none List.not_mem_nil⟩
  have stop : H.stop = 0xE0112008 := memory.heap.ctx.atEnd.symm.trans heapEnd
  refine ⟨s, made, H, nodes, s', booted, memory.heap, memory.below, frames, returned,
    fun a => ⟨fun member => ?_, fun member => ?_⟩, fun ordered => ?_⟩
  · exact Bool.false_ne_true (List.all_eq_true.mp mapped _ member)
  · exact Bool.false_ne_true (List.all_eq_true.mp mapped _ member)
  · have fits := (inOrder_iff_of_hands (pageNew_frames _ _ 0) memory.heap frames
      (n := 0xFFFFF) memory.below (by decide) returned).mp ordered
    unfold BlockFits at fits
    rw [stop] at fits
    exact absurd fits (by decide)

/-- **The registers of the small kernel** at `0xFEE00000`, right after boot. -/
theorem lapic_of_small_boot :
    ∃ s made v s', (∃ t, initMapKernel smallLink (2 ^ 21) freshInit = .ok ((), t) ∧
        smallBoot.pages = handedTables smallLink t) ∧
      pageInitCleanup 2 (fun _ _ => 0) smallRegion smallBoot = .ok ((), s) ∧
      (∃ H nodes, KernelClient ⟨s, made⟩ H nodes) ∧
      apicInit smallStatics 1 0xFEE00 s = .ok (v, s') ∧
      ∀ w, Relation.ReflTransGen (StepAround ⟨v, pageSize, false⟩)
          ⟨s', ⟨v, pageSize, false⟩ :: made⟩ w →
        (∃ M rest, KernelClient w M rest) ∧
          ∃ entry, w.sys.pages.entryOf v = some entry ∧ entryPresent entry = true ∧
            entry &&& Word32.not 0xfff = 0xFEE00000 := by
  obtain ⟨t, run, region, pages, ready⟩ := smallBoot_ready
  obtain ⟨boot, frames⟩ := ready smallBoot rfl rfl
  obtain ⟨s, _, booted, heapEnd, start, -, firstRun, kept⟩ := smallBoot_booted
  obtain ⟨_, made, runs, client, final⟩ := lapic_of_boot boot smallRegion_fits frames
  cases (booted.runs 0).symm.trans (runs 0)
  have statics : smallStatics.Ready s := by
    refine ⟨?_, ?_, by decide, firstRun.trans_ne Nat.one_ne_zero⟩ <;> rw [start] <;> decide +kernel
  obtain ⟨v, s', returned, later⟩ := final _ .refl kept smallStatics statics
    ⟨by decide, by rw [heapEnd]; decide +kernel⟩ (by rw [heapEnd]; decide) 0 0xFEE00
  exact ⟨s, made, v, s', ⟨t, run, pages⟩, runs 0, client, returned, later⟩

end TrashOS
