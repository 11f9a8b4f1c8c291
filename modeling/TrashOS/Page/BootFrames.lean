import TrashOS.Page.KernelTables
import TrashOS.Page.Owner

/-!
# Who owns a page frame after boot

`page_init_cleanup` hands the frames of the init section to `page_free`, unmaps
`init_page_struct`, and puts new page tables into the directory.  `BootFrames` says
what the frames must be like before: no page of the heap region is mapped, the init
pages are mapped to frames of their own, and the memory that becomes a page table
holds no present entry.  `init_map_kernel` leaves the frames so, for every layout that
boots (`Finished.bootFrames`); what the new tables hold is up to the memory.

From there on no frame is owned twice, in every run whose frees leave from an end
inside a page (`framesOwnedOnce_of_boot`).  At an end between two pages the loop of
`free` calls `page_free` for the page behind the heap, which is not present
(`framesOwnedTwice`).
-/

namespace TrashOS

/-! ## Before `page_init_cleanup` -/

/-- The pages whose frames are their own: the heap region behind its first page, and the
init pages that are freed. -/
def InitRegion.OwnPage (region : InitRegion) (page : ℕ) : Prop :=
  (region.heapEndVma < page * pageSize ∧ page * pageSize < 2 ^ 32 - pageSize) ∨
    region.Freed (page * pageSize)

/-- **The frames `page_init_cleanup` finds.** -/
structure BootFrames (region : InitRegion) (contents : ℕ → ℕ → ℕ) (s : Sys PageTables) : Prop where
  log : s.log = []
  next : IsFrame s.pages.heapEndPma
  below : ∀ page u, heldFrame s.pages page = some u → u < s.pages.heapEndPma
  heap : ∀ page, region.heapEndVma < page * pageSize → page * pageSize < 2 ^ 32 - pageSize →
    heldFrame s.pages page = none
  init : ∀ p, region.Freed p → (heldFrame s.pages (p / pageSize)).isSome
  alone : ∀ p page u, region.Freed p → heldFrame s.pages (p / pageSize) = some u →
    heldFrame s.pages page = some u → page = p / pageSize
  clean : ∀ i, entryPresent (s.pages.dir i) = false →
    ∀ k < pageEntries, entryPresent (contents i k) = false

section Boot

variable {region : InitRegion} {contents : ℕ → ℕ → ℕ} {s₀ s s' : Sys PageTables}
  {nodes : List ℕ} {sole : ℕ → Prop} {pt : PageTables} {v entry p i : ℕ}

/-- A page loses its present bit. -/
theorem heldFrame_clear (absent : entryPresent entry = false) :
    heldFrame (pt.write v entry) = Function.update (heldFrame pt) (v / pageSize) none := by
  funext page
  have number : page * pageSize / pageSize = page := Nat.mul_div_cancel _ (by decide)
  by_cases same : page = v / pageSize
  · rw [same, Function.update_self]
    unfold heldFrame
    rw [PageTables.entryOf_write_same (Nat.mul_div_cancel _ (by decide))]
    cases pt.entryOf v with
    | none => rfl
    | some e =>
        change (if entryPresent entry then _ else _) = none
        rw [absent]
        rfl
  · rw [Function.update_of_ne same]
    unfold heldFrame
    rw [PageTables.entryOf_write_other (number.symm ▸ same)]

/-- **The beginning.** -/
theorem BootFrames.owned (frames : BootFrames region contents s₀) :
    Owned region.OwnPage s₀ [] := by
  have outstanding_ : ∀ u, u ∉ outstanding s₀.log := by
    rw [frames.log]
    exact fun u => List.not_mem_nil
  refine ⟨⟨List.nodup_nil, fun u none => absurd none List.not_mem_nil, frames.below,
    fun u issued => absurd issued (outstanding_ u), fun u none => absurd none List.not_mem_nil,
    fun u none => absurd none List.not_mem_nil, fun page page' u own here there => ?_⟩,
    frames.next, fun n none => absurd none List.not_mem_nil, ?_⟩
  · rcases own with ⟨lower, upper⟩ | freed
    · have none := frames.heap page lower upper
      change heldFrame s₀.pages page = some u at here
      rw [none] at here
      cases here
    · have number : page * pageSize / pageSize = page := Nat.mul_div_cancel _ (by decide)
      have alone := frames.alone (page * pageSize) page' u freed
      rw [number] at alone
      exact alone here there
  · rw [frames.log]
    trivial

/-- `page_free` of an init page gives its frame back. -/
theorem Owned.noted {node e : ℕ} (owned : Owned sole s nodes) (there : s.pages.entryOf p = some e)
    (present : entryPresent e = true) (solely : sole (p / pageSize))
    (others : ∀ n ∈ nodes, (s.noted node p e).mem n = s.mem n) :
    Owned sole (s.noted node p e) (node :: nodes) := by
  have held : heldFrame s.pages (p / pageSize) = some (e &&& Word32.not 0xfff) :=
    heldFrame_eq_some.mpr ⟨e, there, present, rfl⟩
  have given := owned.ledger.giveBack solely held
  refine ⟨given.mono ?_ rfl ?_ (fun u issued => ?_) fun _ => id, owned.next,
    fun n member => ?_, owned.handsOut⟩
  · change (node :: nodes).map (s.noted node p e).mem = _ :: nodes.map s.mem
    rw [List.map_cons, noted_mem_node]
    exact congrArg _ (List.map_congr_left others)
  · exact (heldFrame_of_table rfl).trans (heldFrame_clear (entryPresent_clear e))
  · obtain ⟨before, differ⟩ := List.mem_filter.mp issued
    exact ⟨of_decide_eq_true differ, before⟩
  · rcases List.mem_cons.mp member with rfl | old
    · rw [noted_mem_node]
      exact isFrame_mask e
    · rw [others n old]
      exact owned.listed n old

/-- `page_unmap` takes a frame from its page. -/
theorem Owned.unmapped {pages : PageTables} {u : Unit} (owned : Owned sole s nodes)
    (unmaps : pageUnmap p s.pages = .ok (u, pages)) : Owned sole { s with pages := pages }
      nodes := by
  obtain ⟨old, there, rfl⟩ := pageUnmap_eq_ok.mp unmaps
  have lost := owned.ledger.lose (k := p / pageSize)
  refine ⟨lost.mono rfl rfl ?_ (fun _ => id) fun _ => id, owned.next, owned.listed,
    owned.handsOut⟩
  exact (heldFrame_of_table rfl).trans (heldFrame_clear (entryPresent_clear old))

/-- A clean table maps nothing. -/
theorem Owned.installed {words : ℕ → ℕ} (owned : Owned sole s nodes)
    (fresh : s.pages.table i = none)
    (clean : ∀ k < pageEntries, entryPresent (words k) = false) :
    Owned sole (s.installed i words entry) nodes := by
  refine ⟨owned.ledger.mono rfl rfl ?_ (fun _ => id) fun _ => id, owned.next, owned.listed,
    owned.handsOut⟩
  funext page
  change heldFrame (s.installed i words entry).pages page = heldFrame s.pages page
  unfold heldFrame PageTables.entryOf
  by_cases here : pageGetDirIdx (page * pageSize) = i
  · have none := clean _ (pageGetTableIdx_lt (page * pageSize))
    simp only [Sys.installed, here, Function.update_self, fresh, Option.map_some, Option.map_none,
      Option.bind_some, Option.bind_none, none, Bool.false_eq_true, if_false]
  · simp only [Sys.installed, Function.update_of_ne here]

/-- **Every step of `page_init_cleanup` keeps the ledger sound.** -/
theorem BootFrames.keeps (frames : BootFrames region contents s₀) :
    CleanupKeeps region contents s₀ fun s nodes =>
      NextKept s.log → Owned region.OwnPage s nodes where
  loop := ownedLoop_keeps fun _ _ _ => Or.inr
  freed := fun {s nodes node p e} freed holds there original others kept => by
    have start : p / pageSize * pageSize = p :=
      Nat.div_mul_cancel (Nat.dvd_of_mod_eq_zero freed.1)
    obtain ⟨u, held⟩ := Option.isSome_iff_exists.mp (frames.init p freed)
    obtain ⟨e', there', present, -⟩ := heldFrame_eq_some.mp held
    cases original.symm.trans there'
    refine (holds (NextKept.before [_, _, _] kept)).noted there present (Or.inr ?_) others
    rwa [start]
  unmapped := fun holds unmaps kept => (holds kept).unmapped unmaps
  installed := fun {s nodes i entry} holds fresh absent kept =>
    (holds kept).installed fresh (frames.clean i absent)

/-! ## Runs -/

/-- After `page_init_cleanup` the frames have one owner each. -/
theorem ownedClient_of_boot (boot : BootTables region s₀) (fits : region.Fits)
    (frames : BootFrames region contents s₀) :
    ∃ s' made H nodes, (∀ depth, pageInitCleanup (depth + 2) contents region s₀ = .ok ((), s')) ∧
      AllTables s'.pages ∧ OwnedClient ⟨s', made⟩ H nodes := by
  obtain ⟨s', H, nodes, made, runs, all, first, client, owned⟩ :=
    pageInitCleanup_runs boot fits frames.keeps fun _ => frames.owned
  refine ⟨s', made, H, nodes, runs, all, client, fun kept => (owned kept).mono ?_⟩
  rintro page ⟨lower, upper⟩
  rw [first] at lower
  exact Or.inl ⟨lower, upper.trans_le client.memory.below⟩

/-- **No physical page is owned twice.** `page_init_cleanup` returns, and in every run from the
state it leaves whose frees leave from an end inside a page, no frame is owned twice as long as
`kernel_heap_end_pma` does not wrap around.  `BootFrames` is what the frames must be like before
the first call: it holds of every layout that boots, by `Finished.bootFrames`.  `SafeFree` admits
a free when the list has room for the nodes of the pages it releases and the block does not end
the heap at a page start; without the second condition the frame of the page behind the heap is
handed out twice, as in `framesOwnedTwice`. -/
theorem framesOwnedOnce_of_boot (boot : BootTables region s₀) (fits : region.Fits)
    (frames : BootFrames region contents s₀) :
    ∃ s' made, (∀ depth, pageInitCleanup (depth + 2) contents region s₀ = .ok ((), s')) ∧
      (∃ H nodes, KernelClient ⟨s', made⟩ H nodes) ∧
      ∀ w, Relation.ReflTransGen (KernelStep SafeFree) ⟨s', made⟩ w → NextKept w.sys.log →
        ∃ nodes, OwnedOnce w.sys nodes := by
  obtain ⟨s', made, H, nodes, runs, -, owned⟩ := ownedClient_of_boot boot fits frames
  refine ⟨s', made, runs, ⟨H, nodes, owned.client⟩, fun w run kept => ?_⟩
  obtain ⟨M, nodes', inv⟩ := ownedClient_of_run owned run
  exact ⟨nodes', inv.once kept⟩

end Boot

/-! ## What `init_map_kernel` leaves -/

section Init

variable {sym : LinkSymbols} {s : InitState} {dirs : List ℕ} {page : ℕ}

/-- **Which frame a page has**: the one the segments map it to. -/
theorem Finished.heldFrame (finished : Finished sym dirs s) (linked : sym.Linked)
    (covered : sym.TablesCovered) :
    TrashOS.heldFrame (handedTables sym s) page =
      (Segment.translate sym.segments (page * pageSize)).map Prod.fst := by
  unfold TrashOS.heldFrame
  rw [finished.entryOf_eq linked covered]
  split_ifs with member
  · change (if entryPresent (entryWord (pageMap sym.segments page)) then
      some (entryWord (pageMap sym.segments page) &&& Word32.not 0xfff) else none) = _
    unfold pageMap
    cases translated : Segment.translate sym.segments (page * pageSize) with
    | none =>
        have absent : ¬ entryPresent 0 = true := by decide
        exact if_neg absent
    | some x =>
        obtain ⟨pma, flags⟩ := x
        have entry := linked.isEntry (Nat.mul_mod_left _ _) translated
        unfold entryWord
        dsimp only
        rw [if_pos entry.present_eq, entry.mask_eq]
        rfl
  · have outside : page * pageSize / (pageEntries * pageSize) ∉ sym.allRegions := by
      rw [Nat.mul_div_mul_right _ _ (by decide), ← finished.regions, List.mem_toFinset]
      exact member
    rw [sym.translate_of_region outside]
    rfl

/-- **The frames `page_init_cleanup` finds**, when the memory that becomes a page table holds
no present entry. -/
theorem Finished.bootFrames (finished : Finished sym dirs s) (boots : sym.Boots)
    {k : Sys PageTables} {contents : ℕ → ℕ → ℕ} (pages : k.pages = handedTables sym s)
    (log : k.log = []) (clean : ∀ i j, entryPresent (contents i j) = false) :
    BootFrames sym.region contents k := by
  have linked := boots.toLinked
  obtain ⟨init, kernel, rodata, bss, stack⟩ := linked.ordered
  have base := linked.kernelEndPma_eq
  have heap : sym.region.heapEndVma = sym.heapStart := rfl
  have bssKernel := boots.bssKernel
  have textStart := boots.textStart
  have next := boots.next_eq
  have nextPma : k.pages.heapEndPma = sym.tableAt sym.tableCount := by
    rw [pages]
    exact finished.nextPma_eq boots
  have heapStart : kernelStartVma < sym.heapStart := by
    unfold LinkSymbols.heapStart pageSize
    omega
  have translated : ∀ {page u}, TrashOS.heldFrame k.pages page = some u →
      ∃ x, Segment.translate sym.segments (page * pageSize) = some x ∧ x.1 = u := fun held => by
    rw [pages, finished.heldFrame linked boots.covered] at held
    exact Option.map_eq_some_iff.mp held
  have freedInside : ∀ {p}, sym.region.Freed p →
      sym.initStart ≤ p ∧ p < sym.initBssEnd ∧
        (p < sym.initPageStruct ∨ sym.initPageStruct + 3 * pageSize ≤ p) := by
    rintro p ⟨-, ⟨lower, upper⟩ | ⟨lower, upper⟩⟩
    all_goals
      have structBss := boots.structBss
      have startStruct := boots.startStruct
      change _ ≤ p at lower
      change p < _ at upper
      unfold LinkSymbols.stackPage at structBss
      dsimp only [LinkSymbols.region, InitRegion.structEnd, initPageStructPages] at lower upper
      omega
  refine ⟨log, ?_, fun page u held => ?_, fun page lower upper => ?_, fun p freed => ?_,
    fun p page u freed here there => ?_, fun i _ j _ => clean i j⟩
  · rw [nextPma]
    exact ⟨linked.tablesBehind.tableAt_aligned _, boots.next⟩
  · obtain ⟨x, there, rfl⟩ := translated held
    rw [nextPma]
    have cases := boots.frame_of_translate there
    unfold LinkSymbols.heapStart at heapStart
    omega
  · rw [heap] at lower
    refine Option.eq_none_iff_forall_ne_some.mpr fun u held => ?_
    obtain ⟨x, there, -⟩ := translated held
    have cases := boots.frame_of_translate there
    omega
  · obtain ⟨lower, upper, -⟩ := freedInside freed
    have start : p / pageSize * pageSize = p :=
      Nat.div_mul_cancel (Nat.dvd_of_mod_eq_zero freed.1)
    rw [pages, finished.heldFrame linked boots.covered, start]
    have found : Segment.translate sym.segments p = some (p, pageWrite ||| pagePresent) := by
      refine (Segment.translate_eq_some linked.apart).mpr ⟨_, List.mem_of_getElem? (i := 0) rfl,
        ⟨lower, ?_⟩, Prod.ext ?_ rfl⟩
      · change p < sym.initStart + (sym.initBssEnd - sym.initStart)
        omega
      · change sym.initStart + (p - sym.initStart) = p
        omega
    rw [found]
    rfl
  · obtain ⟨lower, upper, outside⟩ := freedInside freed
    have start : p / pageSize * pageSize = p :=
      Nat.div_mul_cancel (Nat.dvd_of_mod_eq_zero freed.1)
    obtain ⟨x, foundHere, rfl⟩ := translated here
    obtain ⟨y, foundThere, same⟩ := translated there
    rw [start] at foundHere
    have own := boots.frame_of_translate foundHere
    have other := boots.frame_of_translate foundThere
    have equal : page * pageSize = p := by omega
    rw [← equal, Nat.mul_div_cancel _ (by decide)]

end Init

/-! ## The small kernel -/

theorem smallRegion_fits : smallRegion.Fits := by decide +kernel

/-- The small kernel is ready for `page_init_cleanup`. -/
theorem smallBoot_ready :
    ∃ t, initMapKernel smallLink (2 ^ 21) freshInit = .ok ((), t) ∧
      initRegion smallLink t = smallRegion ∧ smallBoot.pages = handedTables smallLink t ∧
      ∀ k : Sys PageTables, k.pages = smallBoot.pages → k.log = [] →
        BootTables smallRegion k ∧ BootFrames smallRegion (fun _ _ => 0) k := by
  obtain ⟨t, dirs, run, finished, region, pages⟩ := smallBoot_handed
  refine ⟨t, run, region, pages, fun k same log => ?_⟩
  rw [← smallLink_region]
  exact ⟨finished.bootTables smallLink_linked smallLink_boots.covered (same.trans pages),
    finished.bootFrames smallLink_boots (same.trans pages) log fun _ _ => by decide⟩

/-- **The small kernel has booted**: `init_map_kernel` has built the page tables of `k`, and
`page_init_cleanup` has left `s`, with the page tables it has made. -/
structure SmallBooted (k s : Sys PageTables) (made : List Chunk) : Prop where
  handed : ∃ t, initMapKernel smallLink (2 ^ 21) freshInit = .ok ((), t) ∧
    initRegion smallLink t = smallRegion ∧ k.pages = handedTables smallLink t
  runs : ∀ depth, pageInitCleanup (depth + 2) (fun _ _ => 0) smallRegion k = .ok ((), s)
  tables : AllTables s.pages
  owned : ∃ H nodes, OwnedClient ⟨s, made⟩ H nodes

/-- What is left after boot can be looked at by running it. -/
theorem smallBooted_of_check {α : Type} {m : KM PageTables α} {k : Sys PageTables}
    (pages : k.pages = smallBoot.pages) (log : k.log = []) (p : α → Sys PageTables → Bool)
    (check : Prog.passes (do pageInitCleanup 2 (fun _ _ => 0) smallRegion; m) k p = true) :
    ∃ s made a s', SmallBooted k s made ∧ m s = .ok (a, s') ∧ p a s' = true := by
  obtain ⟨t, run, region, same, ready⟩ := smallBoot_ready
  obtain ⟨boot, frames⟩ := ready k pages log
  obtain ⟨s, made, H, nodes, runs, all, owned⟩ := ownedClient_of_boot boot smallRegion_fits frames
  obtain ⟨a, s', returned, checked⟩ := Prog.exists_of_check p check
  rw [Prog.bind_of_ok (runs 0)] at returned
  exact ⟨s, made, a, s', ⟨⟨t, run, region, pages.trans same⟩, runs, all, H, nodes, owned⟩, returned,
    checked⟩

/-- The theorem at that state. -/
theorem framesOwnedOnce_of_small_kernel :
    ∃ t, initMapKernel smallLink (2 ^ 21) freshInit = .ok ((), t) ∧
      smallBoot.pages = handedTables smallLink t ∧
      ∃ s' made, (∀ depth, pageInitCleanup (depth + 2) (fun _ _ => 0) (initRegion smallLink t)
          smallBoot = .ok ((), s')) ∧ (∃ H nodes, KernelClient ⟨s', made⟩ H nodes) ∧
        ∀ w, Relation.ReflTransGen (KernelStep SafeFree) ⟨s', made⟩ w → NextKept w.sys.log →
          ∃ nodes, OwnedOnce w.sys nodes := by
  obtain ⟨t, run, region, pages, ready⟩ := smallBoot_ready
  obtain ⟨boot, frames⟩ := ready smallBoot rfl rfl
  refine ⟨t, run, pages, ?_⟩
  rw [region]
  exact framesOwnedOnce_of_boot boot smallRegion_fits frames

/-- No call of `page_new` wrapped `kernel_heap_end_pma` around, by a look at the log. -/
def nextKept (log : List (Event PageTables)) : Bool :=
  log.all fun e =>
    match e with
    | .pageNew _ pages => pages.heapEndPma != 0
    | _ => true

theorem nextKept_of_check {log : List (Event PageTables)} (kept : nextKept log = true) :
    NextKept log := by
  intro pma pages member
  have this := List.all_eq_true.mp kept _ member
  exact bne_iff_ne.mp this

/-- What boot leaves of the small kernel: a heap that ends in a page it has begun, and an
empty page list. -/
structure SmallHeap (s : Sys PageTables) : Prop where
  heapEnd : s.ctxt.heapEnd = 0xE0112008
  start : s.ctxt.start = 0xE0016000
  freeList : s.pages.freeList = 0
  firstRun : s.mem 0xE0000800 = 1
  kept : NextKept s.log

theorem smallBoot_booted : ∃ s made, SmallBooted smallBoot s made ∧ SmallHeap s := by
  obtain ⟨s, made, _, s', booted, read, check⟩ := smallBooted_of_check (k := smallBoot) rfl rfl
    (m := Prog.read fun _ => ())
    (fun _ s => decide (s.ctxt.heapEnd = 0xE0112008 ∧ s.ctxt.start = 0xE0016000 ∧
      s.pages.freeList = 0 ∧ s.mem 0xE0000800 = 1 ∧ nextKept s.log = true)) (by decide +kernel)
  cases read
  obtain ⟨heapEnd, start, freeList, firstRun, kept⟩ := of_decide_eq_true check
  exact ⟨s, made, booted, heapEnd, start, freeList, firstRun, nextKept_of_check kept⟩

/-- A list whose second and third nodes note the same frame. -/
theorem not_ownedOnce {s : Sys PageTables} {n₁ n₂ n₃ : ℕ} (first : s.pages.freeList = n₁)
    (second : s.mem (n₁ + 4) = n₂) (third : s.mem (n₂ + 4) = n₃)
    (nonnull : n₁ ≠ 0 ∧ n₂ ≠ 0 ∧ n₃ ≠ 0) (same : s.mem n₂ = s.mem n₃) (nodes : List ℕ) :
    ¬ OwnedOnce s nodes := by
  intro once
  have list : PointerList.Singly 0 (fun n => s.mem (n + 4)) s.pages.freeList nodes := once.list
  have distinct := once.distinct
  rw [first] at list
  cases nodes with
  | nil => exact nonnull.1 list
  | cons a rest =>
      obtain ⟨rfl, -, list⟩ := list
      change PointerList.Singly 0 _ (s.mem (n₁ + 4)) rest at list
      rw [second] at list
      cases rest with
      | nil => exact nonnull.2.1 list
      | cons b rest =>
          obtain ⟨rfl, -, list⟩ := list
          change PointerList.Singly 0 _ (s.mem (n₂ + 4)) rest at list
          rw [third] at list
          cases rest with
          | nil => exact nonnull.2.2 list
          | cons c rest =>
              obtain ⟨rfl, -, -⟩ := list
              rw [List.map_cons, List.map_cons, List.map_cons] at distinct
              have apart := (List.nodup_cons.mp (List.nodup_cons.mp distinct).2).1
              exact apart (same ▸ List.mem_cons_self)

/-- A block that ends the heap exactly at a page boundary is freed: `free` calls
`page_free` for the page behind the heap, and the frame that page last had is put on
the list a second time. -/
theorem framesOwnedTwice :
    ∃ s made w, SmallBooted smallBoot s made ∧
      Relation.ReflTransGen (KernelStep fun _ _ => True) ⟨s, made⟩ w ∧ NextKept w.sys.log ∧
        ∀ nodes, ¬ OwnedOnce w.sys nodes := by
  obtain ⟨s, made, ⟨firstEnd, secondEnd⟩, w, booted, returned, check⟩ :=
    smallBooted_of_check (k := smallBoot) rfl rfl
    (m := do
      let firstEnd ← getEnd
      let v ← kmallocAligned 1 8184 8
      kfree 1 v
      let secondEnd ← getEnd
      let v ← kmallocAligned 1 8176 8
      kfree 1 v
      pure (firstEnd, secondEnd))
    (fun r s =>
      let second := s.mem (s.pages.freeList + 4)
      let third := s.mem (second + 4)
      decide (r.1 = 0xE0112008 ∧ r.2 = 0xE0112008 ∧ nextKept s.log = true ∧
        (s.pages.freeList ≠ 0 ∧ second ≠ 0 ∧ third ≠ 0) ∧ s.mem second = s.mem third))
    (by decide +kernel)
  obtain ⟨_, _, ending, afterFirst⟩ := Prog.bind_eq_ok.mp returned
  cases ending
  obtain ⟨v₁, s₁, first, afterFirst⟩ := Prog.bind_eq_ok.mp afterFirst
  obtain ⟨_, s₂, release₁, afterSecond⟩ := Prog.bind_eq_ok.mp afterFirst
  obtain ⟨_, _, ending, afterSecond⟩ := Prog.bind_eq_ok.mp afterSecond
  cases ending
  obtain ⟨v₂, s₃, second, afterSecond⟩ := Prog.bind_eq_ok.mp afterSecond
  obtain ⟨_, s₄, release₂, final⟩ := Prog.bind_eq_ok.mp afterSecond
  cases final
  obtain ⟨atFirst, atSecond, kept, nonnull, twice⟩ := of_decide_eq_true check
  have step₁ : KernelStep (fun _ _ => True) ⟨s, made⟩
      ⟨s₁, ⟨v₁, roundBytes 8184, false⟩ :: made⟩ := by
    refine .alloc (ClientWrites.refl _ s) rfl ⟨3, by decide, by decide, rfl⟩ ?_ first
    rw [SpaceSuffices, show s.ctxt.heapEnd = 0xE0112008 from atFirst]
    decide +kernel
  have step₂ : KernelStep (fun _ _ => True) ⟨s₁, ⟨v₁, roundBytes 8184, false⟩ :: made⟩
      ⟨s₂, (⟨v₁, roundBytes 8184, false⟩ :: made).erase ⟨v₁, roundBytes 8184, false⟩⟩ :=
    .free (ClientWrites.refl _ s₁) rfl List.mem_cons_self trivial release₁
  rw [List.erase_cons_head] at step₂
  have step₃ : KernelStep (fun _ _ => True) ⟨s₂, made⟩
      ⟨s₃, ⟨v₂, roundBytes 8176, false⟩ :: made⟩ := by
    refine .alloc (ClientWrites.refl _ s₂) rfl ⟨3, by decide, by decide, rfl⟩ ?_ second
    rw [SpaceSuffices, show s₂.ctxt.heapEnd = 0xE0112008 from atSecond]
    decide +kernel
  have step₄ : KernelStep (fun _ _ => True) ⟨s₃, ⟨v₂, roundBytes 8176, false⟩ :: made⟩
      ⟨w, (⟨v₂, roundBytes 8176, false⟩ :: made).erase ⟨v₂, roundBytes 8176, false⟩⟩ :=
    .free (ClientWrites.refl _ s₃) rfl List.mem_cons_self trivial release₂
  exact ⟨s, made, _, booted,
    (((Relation.ReflTransGen.single step₁).tail step₂).tail step₃).tail step₄,
    nextKept_of_check kept, not_ownedOnce rfl rfl rfl nonnull twice⟩

end TrashOS
