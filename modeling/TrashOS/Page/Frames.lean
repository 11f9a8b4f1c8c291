import TrashOS.Heap.Loops
import TrashOS.Page.Kernel

/-!
# Frames in the order of the supplier

A page-aligned block of `n` pages is mapped to the frames its supplier hands over,
the first page to the first frame.  The suppliers of the kernel are `page_new` and
the `lvt_get_page_pma` of `apic.c`, whose first call hands over the registers of
the local APIC; both may free nodes of the page list on the heap that is being
extended.

The calls of the supplier are read off the log (`Handed`).  `mapEach_frames` follows
the page loop in an open state, for any supplier that hands over one frame a call
(`HandsFrames`); `inOrder_iff_of_hands` is the statement about whole calls, for any such
supplier.
-/

namespace TrashOS

/-! ## Frames in the log -/

/-- The frame an event says was handed over. -/
def Event.frame {π : Type} : Event π → Option ℕ
  | .pageNew pma _ => some pma
  | .devicePage pma => some pma
  | _ => none

/-- The frames the supplier handed over, the first one first. -/
def handedOver {π : Type} (es : List (Event π)) : List ℕ := es.reverse.filterMap Event.frame

/-- Between `s` and `s'` the supplier handed over the frames `pmas`. -/
def Handed {π : Type} (pmas : List ℕ) (s s' : Sys π) : Prop :=
  ∃ es, s'.log = es ++ s.log ∧ handedOver es = pmas

/-- A page frame. -/
structure IsFrame (pma : ℕ) : Prop where
  aligned : pma % pageSize = 0
  word : pma < 2 ^ 32

section Log

variable {π : Type} {s s' s'' : Sys π} {pmas later : List ℕ}

theorem Handed.refl (s : Sys π) : Handed [] s s := ⟨[], rfl, rfl⟩

theorem Handed.trans (first : Handed pmas s s') (second : Handed later s' s'') :
    Handed (pmas ++ later) s s'' := by
  obtain ⟨es, logEq, rfl⟩ := first
  obtain ⟨es', logEq', rfl⟩ := second
  refine ⟨es' ++ es, by rw [logEq', logEq, List.append_assoc], ?_⟩
  rw [handedOver, List.reverse_append, List.filterMap_append]
  rfl

/-- The log says it once. -/
theorem Handed.unique (first : Handed pmas s s') (second : Handed later s s') : pmas = later := by
  obtain ⟨es, logEq, rfl⟩ := first
  obtain ⟨es', logEq', rfl⟩ := second
  exact congrArg handedOver (List.append_cancel_right (logEq.symm.trans logEq'))

/-- Only the log matters. -/
theorem Handed.congr {t t' : Sys π} (handed : Handed pmas s s') (start : t.log = s.log)
    (final : t'.log = s'.log) : Handed pmas t t' := by
  obtain ⟨es, logEq, frames⟩ := handed
  exact ⟨es, by rw [final, logEq, start], frames⟩

/-- Accesses hand over nothing. -/
theorem handedOver_of_accesses {es : List (Event π)}
    (accesses : ∀ e ∈ es, ∃ a mapped, e = .load a mapped ∨ e = .store a mapped) :
    handedOver es = [] := by
  refine List.filterMap_eq_nil_iff.mpr fun e member => ?_
  obtain ⟨a, mapped, rfl | rfl⟩ := accesses e (List.mem_reverse.mp member) <;> rfl

variable [PageLayer π]

theorem Touch.handed {A : ℕ → Prop} (touch : Touch A s s') : Handed [] s s' := by
  obtain ⟨es, logEq, accesses⟩ := touch.log
  refine ⟨es, logEq, handedOver_of_accesses fun e member => ?_⟩
  obtain ⟨a, -, shape⟩ := accesses e member
  exact ⟨a, _, shape⟩

/-- Writing the last descriptors hands over nothing, wherever they lie. -/
theorem allocFinish_handed {vma n : ℕ} {u : Unit}
    (returned : allocFinish vma n s = .ok (u, s')) : Handed [] s s' ∧ s'.pages = s.pages := by
  unfold allocFinish allocGetNextDesc allocGetSize at returned
  obtain ⟨_, s₁, first, returned⟩ := Prog.bind_eq_ok.mp returned
  cases first
  obtain ⟨_, s₂, desc, returned⟩ := Prog.bind_eq_ok.mp returned
  obtain ⟨_, s₃, size, desc⟩ := Prog.bind_eq_ok.mp desc
  obtain ⟨_, s₄, word, size⟩ := Prog.bind_eq_ok.mp size
  cases word
  cases size
  cases desc
  obtain ⟨_, s₅, second, returned⟩ := Prog.bind_eq_ok.mp returned
  cases second
  cases returned
  exact ⟨⟨[_, _, _, _], rfl, rfl⟩, rfl⟩

end Log

theorem pageSetEntry_handed {s s' : Sys PageTables} {vma entry : ℕ} {u : Unit}
    (returned : pageSetEntry vma entry s = .ok (u, s')) : Handed [] s s' := by
  obtain ⟨old, -, rfl⟩ := pageSetEntry_eq_ok.mp returned
  exact ⟨[_], rfl, rfl⟩

/-! ## Suppliers that hand over frames -/

/-- What a supplier may hand over are frames: the one behind all others, those noted
in the page list, and those in static variables below the heap. -/
structure Frames (first : ℕ) (statics : List ℕ) (s : Sys PageTables) (nodes : List ℕ) :
    Prop where
  next : IsFrame s.pages.heapEndPma
  listed : ∀ n ∈ nodes, IsFrame (s.mem n)
  static : ∀ a ∈ statics, a < first ∧ IsFrame (s.mem a)

/-- Each call hands over one frame. -/
def HandsFrames (first : ℕ) (statics : List ℕ) (getPagePma : KM PageTables ℕ) : Prop :=
  ∀ (s : Sys PageTables) (P : Heap) (nodes : List ℕ), P.first = first → OpenKernel s P nodes →
    Frames first statics s nodes →
    ∃ pma s' Q popped rest, getPagePma s = .ok (pma, s') ∧
      Supplied s P nodes s' Q popped rest ∧ s'.pages.table = s.pages.table ∧
      Frames first statics s' rest ∧ Handed [pma] s s' ∧ IsFrame pma

section Suppliers

variable {s s' : Sys PageTables} {P : Heap} {nodes rest statics : List ℕ} {first pma : ℕ}

/-- The frame behind the next one. -/
theorem IsFrame.next (frame : IsFrame pma) : IsFrame (Word32.add pma pageSize) := by
  obtain ⟨aligned, word⟩ := frame
  unfold pageSize at aligned
  constructor
  · unfold Word32.add pageSize
    omega
  · unfold Word32.add
    exact Nat.mod_lt _ (by norm_num)

/-- An entry that `alloc` writes: its frame and its flags. -/
theorem IsFrame.entry (frame : IsFrame pma) :
    (pma ||| pageWrite ||| pagePresent) &&& Word32.not 0xfff = pma ∧
      (pma ||| pageWrite ||| pagePresent) &&& pageWrite ≠ 0 := by
  obtain ⟨aligned, word⟩ := frame
  unfold pageSize at aligned
  have multiple : pma = 2 ^ 12 * (pma / 2 ^ 12) := by omega
  have flags : pma ||| pageWrite ||| pagePresent = pma + 3 := by
    rw [Nat.or_assoc, multiple]
    exact (Nat.two_pow_add_eq_or_of_lt (show 3 < 2 ^ 12 by decide) _).symm
  have low : (pma + 3) % 2 ^ 12 = 3 := by omega
  constructor
  · rw [flags]
    have clear := Word32.and_not_low (k := 12) (by decide) (show pma + 3 < 2 ^ 32 by omega)
    rw [show (0xfff : ℕ) = 2 ^ 12 - 1 from rfl, clear]
    omega
  · rw [flags, pageWrite]
    intro clear
    have bit := congrArg (Nat.testBit · 1) clear
    rw [Nat.testBit_and, Nat.zero_testBit, Bool.and_eq_false_iff] at bit
    rcases bit with bit | bit
    · rw [Nat.testBit_eq_decide_div_mod_eq] at bit
      have odd := of_decide_eq_false bit
      omega
    · exact absurd bit (by decide)

theorem Frames.congr (frames : Frames first statics s nodes) (mem : s'.mem = s.mem)
    (next : s'.pages.heapEndPma = s.pages.heapEndPma) : Frames first statics s' nodes := by
  refine ⟨next ▸ frames.next, fun n member => ?_, fun a member => ?_⟩
  · rw [mem]
    exact frames.listed n member
  · rw [mem]
    exact frames.static a member

/-- Accesses to the heap outside the nodes. -/
theorem Frames.touch {lo hi : ℕ} {keep : Chunk → Prop} (frames : Frames first statics s nodes)
    (touch : Touch (Footprint lo hi keep) s s') (le : first ≤ lo)
    (kept : ∀ n ∈ nodes, keep (nodeChunk n)) : Frames first statics s' nodes := by
  refine ⟨?_, fun n member => ?_, fun a member => ?_⟩
  · rw [touch.pages]
    exact frames.next
  · rw [touch.mem n fun inside => inside.2.2 _ (kept n member)
      ⟨le_rfl, Nat.lt_add_of_pos_right (show 0 < pageFreeNodeSize by decide)⟩]
    exact frames.listed n member
  · obtain ⟨below, frame⟩ := frames.static a member
    rw [touch.mem a fun inside => absurd (below.trans_le le) (Nat.not_lt.mpr inside.1)]
    exact ⟨below, frame⟩

/-- After a call of `page_new`. -/
theorem NewPage.frames (new : NewPage s P nodes pma s' rest) (same : P.first = first)
    (frames : Frames first statics s nodes) :
    Frames first statics s' rest ∧ IsFrame pma ∧ Handed [pma] s s' := by
  refine ⟨⟨?_, fun n member => ?_, fun a member => ?_⟩, ?_, ?_⟩
  · rcases new.source with ⟨-, -, -, next⟩ | ⟨next, -⟩
    · exact next ▸ frames.next.next
    · exact next ▸ frames.next
  · obtain ⟨listed, word⟩ := new.listed n member
    exact word ▸ frames.listed n listed
  · obtain ⟨below, frame⟩ := frames.static a member
    exact ⟨below, (new.below a (same ▸ below)).symm ▸ frame⟩
  · rcases new.source with ⟨-, -, rfl, -⟩ | ⟨-, n, rfl, rfl⟩
    · exact frames.next
    · exact frames.listed n List.mem_cons_self
  · obtain ⟨es, logEq, accesses⟩ := new.log
    refine ⟨.pageNew pma s'.pages :: es, logEq, ?_⟩
    have none := handedOver_of_accesses accesses
    unfold handedOver at none ⊢
    rw [List.reverse_cons, List.filterMap_append, none]
    rfl

/-- `page_new` hands over frames. -/
theorem pageNew_frames (first : ℕ) (statics : List ℕ) (depth : ℕ) :
    HandsFrames first statics (pageNew (depth + 1)) := by
  intro s P nodes same openP frames
  obtain ⟨pma, s', Q, popped, rest, run, supplied, table, new⟩ := pageNewWith_open openP
  obtain ⟨framesS, frame, handed⟩ := new.frames same frames
  exact ⟨pma, s', Q, popped, rest, run _, supplied, table, framesS, handed, frame⟩

/-! ## `lvt_get_page_pma` of `apic.c` -/

/-- The addresses of the static variables of `apic.c` that `lvt_get_page_pma` reads. -/
structure LapicStatics where
  /-- `get_page_first_run` -/
  firstRun : ℕ
  /-- `lapic_base_pma` -/
  basePma : ℕ

/-- `lvt_get_page_pma` -/
def lvtGetPagePma (statics : LapicStatics) (depth : ℕ) : KM PageTables ℕ := do
  let firstRun ← load statics.firstRun
  if firstRun ≠ 0 then do
    store statics.firstRun 0
    let pma ← load statics.basePma
    record (.devicePage pma)
    pure pma
  else pageNew depth

/-- A store below the heap. -/
theorem OpenKernel.storeBelow {a v : ℕ} (openP : OpenKernel s P nodes) (below : a < P.first) :
    OpenKernel (s.stored a v) P nodes := by
  obtain ⟨⟨rep, start, ahead, terminal⟩, list, live⟩ := openP
  have other : ∀ w, P.first ≤ w → (s.stored a v).mem w = s.mem w := by
    intro w le
    exact Function.update_of_ne (by omega) _ _
  have firstLe := P.first_le_stop
  refine ⟨⟨rep.congr (other _ le_rfl) (fun c memC => ?_) (fun c memC _ => ?_) rfl, start, ahead,
    ?_⟩, ?_, live⟩
  · have range := P.range memC
    exact ⟨other _ (by omega), other _ (by omega)⟩
  · have range := P.range memC
    exact ⟨other _ (by omega), other _ (by omega)⟩
  · unfold TerminalClear
    rw [other _ (by omega)]
    exact terminal
  · refine PointerList.Singly.congr list fun n member => other _ ?_
    have range := P.range (live n member).1
    unfold nodeChunk at range
    dsimp only at range
    omega

/-- The first call hands over the base of the local APIC. -/
theorem lvtGetPagePma_first (statics : LapicStatics) (depth : ℕ) (base : ℕ)
    (firstRun : s.mem statics.firstRun ≠ 0) (differ : statics.basePma ≠ statics.firstRun)
    (word : s.mem statics.basePma = base) :
    ∃ es, lvtGetPagePma statics depth s =
      .ok (base, { s.stored statics.firstRun 0 with log := .devicePage base :: (es ++ s.log) }) ∧
      ∀ e ∈ es, ∃ a mapped, e = .load a mapped ∨ e = .store a mapped := by
  subst word
  refine ⟨[.load statics.basePma (PageLayer.mapped s.pages statics.basePma),
    .store statics.firstRun (PageLayer.mapped s.pages statics.firstRun),
    .load statics.firstRun (PageLayer.mapped s.pages statics.firstRun)], ?_, ?_⟩
  · unfold lvtGetPagePma
    rw [Prog.bind_of_ok (m := load statics.firstRun) rfl, if_pos firstRun,
      Prog.bind_of_ok (m := store statics.firstRun 0) rfl,
      Prog.bind_of_ok (m := load statics.basePma) rfl]
    rw [show ((s.loaded statics.firstRun).stored statics.firstRun 0).mem statics.basePma =
      s.mem statics.basePma from Function.update_of_ne differ _ _]
    rfl
  · intro e member
    rcases List.mem_cons.mp member with rfl | member
    · exact ⟨_, _, Or.inl rfl⟩
    rcases List.mem_cons.mp member with rfl | member
    · exact ⟨_, _, Or.inr rfl⟩
    · exact ⟨_, _, Or.inl (List.mem_singleton.mp member)⟩

/-- `lvt_get_page_pma` hands over frames. -/
theorem lvtGetPagePma_frames (statics : LapicStatics) (first depth : ℕ)
    (below : statics.firstRun < first) (differ : statics.basePma ≠ statics.firstRun) :
    HandsFrames first [statics.basePma] (lvtGetPagePma statics (depth + 1)) := by
  intro s P nodes same openP frames
  by_cases firstRun : s.mem statics.firstRun = 0
  · obtain ⟨pma, s', Q, popped, rest, run, supplied, table, framesS, handed, frame⟩ :=
      pageNew_frames first [statics.basePma] depth (s.loaded statics.firstRun) P nodes same
        (openP.congr rfl rfl rfl) (frames.congr rfl rfl)
    refine ⟨pma, s', Q, popped, rest, ?_,
      ⟨supplied.openQ, supplied.nodes, supplied.heaps, supplied.heapEnd⟩, table, framesS, ?_,
      frame⟩
    · unfold lvtGetPagePma
      rw [Prog.bind_of_ok rfl, if_neg (not_not_intro firstRun)]
      exact run
    · have nothing : Handed [] s (s.loaded statics.firstRun) := ⟨[_], rfl, rfl⟩
      exact nothing.trans handed
  · obtain ⟨es, run, accesses⟩ :=
      lvtGetPagePma_first statics (depth + 1) _ firstRun differ rfl
    have below' : statics.firstRun < P.first := same ▸ below
    have openS := openP.storeBelow (v := 0) below'
    refine ⟨_, _, P, [], nodes, run, ⟨openS.congr rfl rfl rfl, rfl, Popped.refl P, rfl⟩, rfl,
      ⟨frames.next, fun n member => ?_, fun a member => ?_⟩, ⟨.devicePage _ :: es, rfl, ?_⟩,
      (frames.static _ List.mem_cons_self).2⟩
    · have range := P.range (openP.live n member).1
      unfold nodeChunk at range
      dsimp only at range
      change IsFrame ((s.stored statics.firstRun 0).mem n)
      rw [stored_mem, Function.update_of_ne (by omega)]
      exact frames.listed n member
    · obtain rfl := List.mem_singleton.mp member
      refine ⟨(frames.static _ member).1, ?_⟩
      change IsFrame ((s.stored statics.firstRun 0).mem _)
      rw [stored_mem, Function.update_of_ne differ]
      exact (frames.static _ member).2
    · have none := handedOver_of_accesses accesses
      unfold handedOver at none ⊢
      rw [List.reverse_cons, List.filterMap_append, none]
      rfl

end Suppliers

/-! ## The page loop -/

section Loop

variable {s s' : Sys PageTables} {P : Heap} {nodes statics : List ℕ} {first : ℕ}
  {getPagePma : KM PageTables ℕ}

/-- The pages of a list have these frames: the `k`-th page the `k`-th frame. -/
def MappedTo (s : Sys PageTables) (pages pmas : List ℕ) : Prop :=
  ∀ (k page : ℕ), pages[k]? = some page → ∃ pma, pmas[k]? = some pma ∧ IsFrame pma ∧
    s.pages.entryOf page = some (pma ||| pageWrite ||| pagePresent)

/-- **The page loop in an open state** maps each page to the frame of its own call:
the pages are different, so no later call changes an entry. -/
theorem mapEach_frames (hands : HandsFrames first statics getPagePma) {u : Unit} :
    ∀ (pages : List ℕ) {s s' : Sys PageTables} {P : Heap} {nodes : List ℕ}, P.first = first →
      OpenKernel s P nodes → Frames first statics s nodes →
      (pages.map fun page => page / pageSize).Nodup →
      mapEach getPagePma pages s = .ok (u, s') →
      ∃ pmas, Handed pmas s s' ∧ pmas.length = pages.length ∧ MappedTo s' pages pmas ∧
        (∀ v, v / pageSize ∉ pages.map (fun page => page / pageSize) →
          s'.pages.entryOf v = s.pages.entryOf v) ∧
        ∀ pma t, pages ≠ [] → getPagePma s = .ok (pma, t) → pmas[0]? = some pma
  | [], s, s', P, nodes, _, _, _, _, returned => by
      cases returned
      refine ⟨[], Handed.refl s, rfl, fun k page inside => ?_, fun _ _ => rfl,
        fun _ _ nonempty => absurd rfl nonempty⟩
      cases inside
  | page :: pages, s, s', P, nodes, same, openP, frames, nodup, returned => by
      obtain ⟨fresh, nodup⟩ := List.nodup_cons.mp nodup
      obtain ⟨pma, s₁, Q, popped, rest, run, supplied, table, frames₁, handed₁, frame⟩ :=
        hands s P nodes same openP frames
      unfold mapEach at returned
      rw [Prog.bind_of_ok run] at returned
      obtain ⟨u₂, s₂, set, returned⟩ := Prog.bind_eq_ok.mp returned
      have handed₂ := pageSetEntry_handed set
      have open₂ := supplied.openQ.setEntry set
      obtain ⟨old, there, rfl⟩ := pageSetEntry_eq_ok.mp set
      obtain ⟨pmas, handed, length, mapped, others, -⟩ := mapEach_frames hands pages
        (supplied.heaps.first.trans same) open₂ (frames₁.congr rfl rfl) nodup returned
      refine ⟨pma :: pmas, (handed₁.trans handed₂).trans handed, congrArg (· + 1) length,
        fun k v inside => ?_, fun v other => ?_, fun pma' t _ first => ?_⟩
      · cases k with
        | zero =>
            cases inside
            refine ⟨pma, rfl, frame, ?_⟩
            rw [others page fresh]
            refine (PageTables.entryOf_write_same rfl).trans ?_
            rw [there]
            rfl
        | succ k => exact mapped k v inside
      · rw [List.map_cons, List.mem_cons, not_or] at other
        rw [others v other.2]
        refine (PageTables.entryOf_write_other other.1).trans ?_
        unfold PageTables.entryOf
        rw [table]
      · cases run.symm.trans first
        rfl

end Loop

/-! ## Whole calls -/

section Calls

variable {s s' : Sys PageTables} {H : Heap} {nodes statics : List ℕ} {n v : ℕ}
  {getPagePma : KM PageTables ℕ}

/-- **The block of `n` pages at `vma` is mapped in the order of the supplier**: its
`k`-th page is present, writable and mapped to what the `k`-th call returned. -/
structure InOrder (s s' : Sys PageTables) (n vma : ℕ) : Prop where
  aligned : vma % pageSize = 0
  mapped : ∃ pmas, Handed pmas s s' ∧ ∀ k < n, ∃ pma entry, pmas[k]? = some pma ∧
    s'.pages.entryOf (vma + k * pageSize) = some entry ∧ entryPresent entry = true ∧
    entry &&& pageWrite ≠ 0 ∧ entry &&& Word32.not 0xfff = pma

/-- The block and the descriptor behind it end below `2 ^ 32`. -/
def BlockFits (H : Heap) (n : ℕ) : Prop :=
  alignedEnd H.stop pageSize + n * pageSize + chunkDescSize < 2 ^ 32

theorem alignedEnd_page {stop : ℕ} (below : stop ≤ 2 ^ 32 - pageSize) :
    alignedEnd stop pageSize % pageSize = 0 ∧ stop ≤ alignedEnd stop pageSize ∧
      alignedEnd stop pageSize ≤ 2 ^ 32 - pageSize := by
  unfold alignedEnd pageSize at *
  omega

/-- A request of `n` pages, as the allocator rounds it. -/
theorem roundBytes_pages (n : ℕ) :
    0 < roundBytes (n * pageSize % 2 ^ 32) ∧ roundBytes (n * pageSize % 2 ^ 32) % 8 = 0 ∧
      roundBytes (n * pageSize % 2 ^ 32) ≤ 2 ^ 32 - pageSize ∧
      (roundBytes (n * pageSize % 2 ^ 32) = 8 ∨
        roundBytes (n * pageSize % 2 ^ 32) % pageSize = 0) ∧
      (0 < n → n * pageSize < 2 ^ 32 → roundBytes (n * pageSize % 2 ^ 32) = n * pageSize) := by
  have multiple : n * pageSize % 2 ^ 32 % 4096 = 0 := by
    unfold pageSize
    omega
  have word : n * pageSize % 2 ^ 32 < 2 ^ 32 := Nat.mod_lt _ (by norm_num)
  obtain ⟨pos, mult, lower, upper⟩ :=
    roundBytes_spec (show n * pageSize % 2 ^ 32 + 15 < 2 ^ 32 by omega)
  refine ⟨pos, mult, ?_, ?_, fun nonzero small => ?_⟩
  · unfold pageSize at *
    omega
  · unfold pageSize at *
    omega
  · rw [Nat.mod_eq_of_lt small] at *
    unfold pageSize at *
    omega

/-- **An extension to a page, whose new end does not wrap around**, maps the pages
from the rounded old end on in the order of the supplier. -/
theorem extendHeap_frames (hands : HandsFrames H.first statics getPagePma)
    (kernel : KernelHeap s H nodes) (frames : Frames H.first statics s nodes)
    (below : H.stop ≤ 2 ^ 32 - pageSize) {b : ℕ}
    (fits : alignedEnd H.stop pageSize + b + 8 < 2 ^ 32)
    (returned : extendHeap getPagePma pageSize b s = .ok (v, s')) :
    v = alignedEnd H.stop pageSize ∧ ∃ pmas, Handed pmas s s' ∧
      pmas.length =
        (startsBetween (alignedEnd H.stop pageSize) (alignedEnd H.stop pageSize + b + 8)).length ∧
      MappedTo s'
        (startsBetween (alignedEnd H.stop pageSize) (alignedEnd H.stop pageSize + b + 8)) pmas ∧
      ∃ s₁, (∀ a < H.first, s₁.mem a = s.mem a) ∧
        ∀ pma t, getPagePma s₁ = .ok (pma, t) → pmas[0]? = some pma := by
  obtain ⟨multiple, le, last⟩ := alignedEnd_page below
  generalize target_eq : alignedEnd H.stop pageSize = target at *
  have aligned : align H.stop pageSize = target := (align_page_eq below).trans target_eq
  have mult : target % 8 = 0 := by
    unfold pageSize at multiple
    omega
  rcases extendHeap_opens kernel.ctx kernel.terminal aligned le mult fits with
    ⟨-, dies⟩ | ⟨P, s₁, padded, touch, -, -, openP, split⟩
  · rw [dies] at returned
    cases returned
  rw [split] at returned
  obtain ⟨u, s₂, loop, returned⟩ := Prog.bind_eq_ok.mp returned
  obtain ⟨u', s₃, finish, returned⟩ := Prog.bind_eq_ok.mp returned
  cases returned
  -- a loop that returned does not count up to a bound on the last page
  have room : v + b + 8 ≤ 2 ^ 32 - pageSize := by
    by_contra high
    exact allocMapPages_never_returns getPagePma (by omega) _ (align_page_mod (by omega))
      (Word32.add_lt _ _) loop
  have short : (startsBetween v (v + b + 8)).length < pageFuel :=
    length_startsBetween_lt (by omega)
  rw [allocMapPages_eq getPagePma (by omega) room short] at loop
  have frames₁ := frames.touch touch le_rfl kernel.live
  obtain ⟨pmas, handed, length, mapped, -, head⟩ := mapEach_frames hands _ padded.first
    (kernel.opened padded touch openP) (frames₁.congr rfl rfl)
    (startsBetween_pages_nodup _ _) loop
  obtain ⟨nothing, pages⟩ := allocFinish_handed finish
  have nonempty : startsBetween v (v + b + 8) ≠ [] := by
    refine List.ne_nil_of_mem (a := v) (mem_startsBetween.mpr ⟨multiple, le_rfl, ?_⟩)
    omega
  refine ⟨rfl, pmas, ?_, length, fun k page inside => ?_, _, fun a low => ?_,
    fun pma t => head pma t nonempty⟩
  · have pad : Handed [] s s₁ := touch.handed
    have all := (pad.trans (handed.congr (t := s₁) rfl rfl)).trans nothing
    rwa [List.nil_append, List.append_nil] at all
  · obtain ⟨pma, here, frame, entry⟩ := mapped k page inside
    refine ⟨pma, here, frame, ?_⟩
    rw [pages]
    exact entry
  · exact touch.mem a fun inside => absurd low (Nat.not_lt.mpr inside.1)

/-- Where the new end wraps around, no page is mapped. -/
theorem extendHeap_no_frames (kernel : KernelHeap s H nodes)
    (below : H.stop ≤ 2 ^ 32 - pageSize) {b : ℕ} (word : b ≤ 2 ^ 32 - pageSize)
    (wraps : 2 ^ 32 ≤ alignedEnd H.stop pageSize + b)
    (returned : extendHeap getPagePma pageSize b s = .ok (v, s')) : Handed [] s s' := by
  obtain ⟨multiple, le, last⟩ := alignedEnd_page below
  generalize target_eq : alignedEnd H.stop pageSize = target at *
  have aligned : align H.stop pageSize = target := (align_page_eq below).trans target_eq
  unfold pageSize at multiple word last
  have keeps : KeepsLive H H.Live := fun _ kept => kept
  unfold extendHeap at returned
  rcases allocPad_cases kernel.ctx.rep kernel.ctx.closed kernel.ctx.atEnd keeps aligned le
    (by omega) (by omega) with ⟨-, dies⟩ | ⟨P, s₁, padded, pad, -, ending, -⟩
  · rw [Prog.bind_of_error dies] at returned
    cases returned
  have start : align target pageSize = target := by
    rw [align_page (by omega), if_neg (not_not_intro multiple)]
    omega
  have bound : ¬ target < Word32.add (Word32.add target b) chunkDescSize := by
    unfold Word32.add chunkDescSize
    omega
  rw [Prog.bind_of_ok pad.1,
    Prog.bind_of_ok (m := getEnd) (a := target) (t := s₁) (by rw [← ending]; rfl),
    Prog.bind_of_ok rfl, start, show pageFuel = 2 ^ 20 + 1 from rfl, allocMapPages_succ,
    if_neg bound] at returned
  obtain ⟨_, s₂, nothing, returned⟩ := Prog.bind_eq_ok.mp returned
  cases nothing
  obtain ⟨_, s₃, finish, returned⟩ := Prog.bind_eq_ok.mp returned
  cases returned
  exact pad.2.handed.trans (((allocFinish_handed finish).1).congr rfl rfl)

/-- The pages from `target` on. -/
theorem getElem?_startsBetween {target hi k : ℕ} (multiple : target % pageSize = 0)
    (inside : target + k * pageSize < hi) :
    (startsBetween target hi)[k]? = some (target + k * pageSize) := by
  have start : alignedEnd target pageSize = target := by
    unfold alignedEnd pageSize at *
    omega
  have few : k < pagesUpTo target hi := by
    unfold pagesUpTo
    unfold pageSize at *
    omega
  unfold startsBetween
  rw [start, List.getElem?_range' few, Nat.mul_comm]

/-- **A page-aligned block on the kernel heap**, for every supplier that hands over
frames. -/
theorem inOrder_iff_of_hands (hands : HandsFrames H.first statics getPagePma)
    (kernel : KernelHeap s H nodes) (frames : Frames H.first statics s nodes)
    (below : H.stop ≤ 2 ^ 32 - pageSize) (pos : 0 < n)
    (returned : alloc getPagePma pageSize (n * pageSize % 2 ^ 32) s = .ok (v, s')) :
    InOrder s s' n v ↔ BlockFits H n := by
  obtain ⟨multiple, le, last⟩ := alignedEnd_page below
  obtain ⟨-, -, word, shape, exact⟩ := roundBytes_pages n
  have low := H.first_le_stop
  change extendHeap getPagePma pageSize (roundBytes (n * pageSize % 2 ^ 32)) s = _ at returned
  unfold BlockFits chunkDescSize
  by_cases fits : alignedEnd H.stop pageSize + roundBytes (n * pageSize % 2 ^ 32) + 8 < 2 ^ 32
  · obtain ⟨rfl, pmas, handed, length, mapped, -⟩ :=
      extendHeap_frames hands kernel frames below fits returned
    generalize alignedEnd H.stop pageSize = target at *
    by_cases small : n * pageSize < 2 ^ 32
    · have size := exact pos small
      rw [size] at mapped fits
      refine iff_of_true ⟨multiple, pmas, handed, fun k inside => ?_⟩ fits
      have below : k * pageSize ≤ n * pageSize := Nat.mul_le_mul_right _ inside.le
      obtain ⟨pma, here, frame, entry⟩ := mapped k _
        (getElem?_startsBetween multiple (by omega))
      obtain ⟨same, writable⟩ := frame.entry
      exact ⟨pma, _, here, entry, entryPresent_or pma, writable, same⟩
    · -- the request wrapped around, and the call mapped fewer than `n` pages
      refine iff_of_false ?_ (by omega)
      rintro ⟨-, pmas', handed', ordered⟩
      obtain ⟨pma, entry, inside, -⟩ := ordered (n - 1) (by omega)
      obtain rfl := handed.unique handed'
      have short := (List.getElem?_eq_some_iff.mp inside).1
      rw [length] at short
      unfold startsBetween at short
      rw [List.length_range'] at short
      unfold pagesUpTo alignedEnd at short
      unfold pageSize at *
      omega
  · have wraps : 2 ^ 32 ≤ alignedEnd H.stop pageSize + roundBytes (n * pageSize % 2 ^ 32) := by
      unfold pageSize at *
      omega
    have nothing := extendHeap_no_frames kernel below word wraps returned
    refine iff_of_false ?_ fun room => ?_
    · rintro ⟨-, pmas, handed, ordered⟩
      obtain ⟨pma, entry, inside, -⟩ := ordered 0 pos
      obtain rfl := nothing.unique handed
      cases inside
    · rw [exact pos (by omega)] at fits
      exact fits room

/-- With `get_page_first_run` set, a page-aligned block of `lvt_get_page_pma` starts with the
frame in `lapic_base_pma`. -/
theorem lvtGetPagePma_block (kernel : KernelHeap s H nodes) (below : H.stop ≤ 2 ^ 32 - pageSize)
    (pos : 0 < n) {statics : LapicStatics} (firstRun : statics.firstRun < H.first)
    (differ : statics.basePma ≠ statics.firstRun)
    (frames : Frames H.first [statics.basePma] s nodes) (fits : BlockFits H n)
    (first : s.mem statics.firstRun ≠ 0) {depth : ℕ}
    (returned : alloc (lvtGetPagePma statics (depth + 1)) pageSize (n * pageSize % 2 ^ 32) s =
      .ok (v, s')) :
    ∃ entry, s'.pages.entryOf v = some entry ∧ entryPresent entry = true ∧
      entry &&& Word32.not 0xfff = s.mem statics.basePma := by
  have hands := lvtGetPagePma_frames statics H.first depth firstRun differ
  obtain ⟨-, pmas, handed, mapped⟩ :=
    (inOrder_iff_of_hands hands kernel frames below pos returned).mpr fits
  obtain ⟨pma, entry, here, there, present, -, frame⟩ := mapped 0 pos
  rw [Nat.zero_mul, Nat.add_zero] at there
  refine ⟨entry, there, present, frame.trans ?_⟩
  -- the static variables are as before when the page loop starts
  have size : roundBytes (n * pageSize % 2 ^ 32) = n * pageSize := by
    obtain ⟨-, -, -, -, exact⟩ := roundBytes_pages n
    refine exact pos ?_
    unfold BlockFits at fits
    omega
  change extendHeap _ _ (roundBytes (n * pageSize % 2 ^ 32)) s = _ at returned
  rw [size] at returned
  obtain ⟨-, pmas', handed', -, -, s₁, same, head⟩ :=
    extendHeap_frames hands kernel frames below fits returned
  obtain rfl := handed.unique handed'
  rw [← same _ firstRun] at first
  obtain ⟨es, run, -⟩ := lvtGetPagePma_first statics (depth + 1) _ first differ
    (same _ (frames.static _ List.mem_cons_self).1)
  exact Option.some.inj (here.symm.trans (head _ _ run))

end Calls

end TrashOS
