import TrashOS.Heap.Open
import TrashOS.Heap.Pages

/-!
# The kernel heap and its page list

The nodes of `page_free_list` are 8-byte blocks of the kernel heap itself.
`page_new` pops one and gives it back with `kfree`, in the middle of the extension
that asked for the page.  `KernelHeap` is the state between calls, `OpenKernel`
the one in which `page_new` is called.

`pageNewWith_open` is the step: it pops at most one node, frees it without taking
the end-of-heap branch, and leaves the heap open.  `Supplies` states the step for
any page supplier, so that the page loop (`allocMapPages_open`) and the whole call
(`Supplies.alloc_returned`) are proved once for all suppliers of the kernel.
-/

namespace TrashOS

variable {s s' : Sys PageTables} {H P Q : Heap} {nodes popped rest : List ℕ}

/-- The block a node of `page_free_list` lives in. -/
def nodeChunk (n : ℕ) : Chunk := ⟨n, pageFreeNodeSize, false⟩

/-- `page_free_list` is the list `nodes`. -/
def PageNodes (s : Sys PageTables) (nodes : List ℕ) : Prop :=
  PointerList.Singly 0 (fun n => s.mem (n + 4)) s.pages.freeList nodes

/-- **A well-formed kernel memory state**: the kernel context holds the heap `H`
and every node of the page list is a block of it in use. -/
structure KernelHeap (s : Sys PageTables) (H : Heap) (nodes : List ℕ) : Prop where
  ctx : HeapContext s H
  terminal : H.chunks ≠ [] → TerminalClear s H
  list : PageNodes s nodes
  live : ∀ n ∈ nodes, H.Live (nodeChunk n)

/-- The state in which `page_new` is called. -/
structure OpenKernel (s : Sys PageTables) (P : Heap) (nodes : List ℕ) : Prop where
  heap : OpenHeap s P
  list : PageNodes s nodes
  live : ∀ n ∈ nodes, P.Live (nodeChunk n)

/-- `Q` is `P` after the nodes `popped` were freed. -/
structure Popped (P Q : Heap) (popped : List ℕ) : Prop where
  first : Q.first = P.first
  stop : Q.stop = P.stop
  live : (popped.map nodeChunk ++ liveOf Q.chunks).Perm (liveOf P.chunks)
  covered : ∀ n ∈ popped, Covered Q (nodeChunk n)
  covers : ∀ d, Covered P d → Covered Q d

namespace Popped

theorem refl (P : Heap) : Popped P P [] :=
  ⟨rfl, rfl, List.Perm.refl _, by simp, fun _ => id⟩

theorem trans {R : Heap} {later : List ℕ} (first : Popped P Q popped) (second : Popped Q R later) :
    Popped P R (popped ++ later) := by
  refine ⟨second.first.trans first.first, second.stop.trans first.stop, ?_, fun n member => ?_,
    fun d covered => second.covers d (first.covers d covered)⟩
  · rw [List.map_append, List.append_assoc]
    exact (second.live.append_left _).trans first.live
  · rcases List.mem_append.mp member with early | late
    · exact second.covers _ (first.covered n early)
    · exact second.covered n late

/-- One node. -/
theorem of_freed {n : ℕ} (freed : Freed P (nodeChunk n) Q) : Popped P Q [n] := by
  refine ⟨freed.first, freed.stop, freed.live, fun m member => ?_, freed.covers⟩
  rw [List.mem_singleton.mp member]
  exact freed.covered

end Popped

/-- The way from one open state to the next: the nodes `popped` were freed, `rest`
are still listed. -/
structure Supplied (s : Sys PageTables) (P : Heap) (nodes : List ℕ) (s' : Sys PageTables) (Q : Heap)
    (popped rest : List ℕ) : Prop where
  openQ : OpenKernel s' Q rest
  nodes : nodes = popped ++ rest
  heaps : Popped P Q popped
  heapEnd : s'.ctxt.heapEnd = s.ctxt.heapEnd

namespace Supplied

theorem refl (openP : OpenKernel s P nodes) : Supplied s P nodes s P [] nodes :=
  ⟨openP, rfl, Popped.refl P, rfl⟩

theorem trans {t : Sys PageTables} {R : Heap} {later rest' : List ℕ}
    (first : Supplied s P nodes s' Q popped rest) (second : Supplied s' Q rest t R later rest') :
    Supplied s P nodes t R (popped ++ later) rest' :=
  ⟨second.openQ, by rw [first.nodes, second.nodes, List.append_assoc],
    first.heaps.trans second.heaps, second.heapEnd.trans first.heapEnd⟩

end Supplied

/-- **A page supplier of the kernel** whose heap starts at `first`: from every
open state it returns, and leaves an open state with the same page tables. -/
def Supplies (first : ℕ) (getPagePma : KM PageTables ℕ) : Prop :=
  ∀ (s : Sys PageTables) (P : Heap) (nodes : List ℕ), P.first = first → OpenKernel s P nodes →
    ∃ pma s' Q popped rest, getPagePma s = .ok (pma, s') ∧
      Supplied s P nodes s' Q popped rest ∧ s'.pages.table = s.pages.table

/-! ## The page list -/

/-- The links of nodes in blocks that were not touched. -/
theorem PageNodes.touch {lo hi : ℕ} {keep : Chunk → Prop} (list : PageNodes s nodes)
    (touch : Touch (Footprint lo hi keep) s s') (kept : ∀ n ∈ nodes, keep (nodeChunk n)) :
    PageNodes s' nodes := by
  unfold PageNodes at list ⊢
  rw [touch.pages]
  refine list.congr fun n member => touch.mem _ fun inside => inside.2.2 _ (kept n member) ?_
  exact ⟨Nat.le_add_right n 4, Nat.add_lt_add_left (show 4 < pageFreeNodeSize by decide) n⟩

theorem PageNodes.nodup (list : PageNodes s nodes) : nodes.Nodup :=
  PointerList.Singly.nodup list

/-- Distinct nodes are distinct blocks. -/
theorem nodeChunk_injective : Function.Injective nodeChunk := by
  intro n m same
  exact congrArg Chunk.vma same

/-- A block other than the freed one stays in use. -/
theorem Freed.keeps {c d : Chunk} (freed : Freed P c Q) (live : P.Live d) (differ : d ≠ c) :
    Q.Live d := by
  have member : d ∈ c :: liveOf Q.chunks := freed.live.mem_iff.mpr (mem_liveOf.mpr live)
  exact mem_liveOf.mp ((List.mem_cons.mp member).resolve_left differ)

/-! ## `page_new` in the middle of an extension -/

/-- Only the words, the context and the page list matter. -/
theorem OpenKernel.congr (openP : OpenKernel s P nodes) (mem : s'.mem = s.mem)
    (ctxt : s'.ctxt = s.ctxt) (list : s'.pages.freeList = s.pages.freeList) :
    OpenKernel s' P nodes := by
  obtain ⟨⟨rep, start, ahead, terminal⟩, nodesList, live⟩ := openP
  refine ⟨⟨rep.congr (by rw [mem]) (fun c _ => by rw [mem]; exact ⟨rfl, rfl⟩)
    (fun c _ _ => by rw [mem]; exact ⟨rfl, rfl⟩) (by rw [ctxt]), by rw [ctxt]; exact start,
    by rw [ctxt]; exact ahead, ?_⟩, ?_, live⟩
  · unfold TerminalClear
    rw [mem]
    exact terminal
  · unfold PageNodes
    rw [mem, list]
    exact nodesList

/-- `page_new` with an empty page list takes the page at the end. -/
theorem pageNewWith_nil (kfree : ℕ → KM PageTables Unit) (empty : s.pages.freeList = 0) :
    pageNewWith kfree s = .ok (s.pages.heapEndPma, { s with
      pages := { s.pages with heapEndPma := Word32.add s.pages.heapEndPma pageSize }
      log := .pageNew s.pages.heapEndPma
        { s.pages with heapEndPma := Word32.add s.pages.heapEndPma pageSize } :: s.log }) := by
  unfold pageNewWith getPageFreeList
  rw [Prog.bind_of_ok (Prog.read_run _ _), if_neg (not_not_intro empty)]
  rfl

/-- `page_new` with a node pops it and frees it. -/
theorem pageNewWith_cons (kfree : ℕ → KM PageTables Unit) {n : ℕ} (head : s.pages.freeList = n)
    (pos : n ≠ 0) (word : n + 4 < 2 ^ 32) :
    pageNewWith kfree s = (do
        kfree n
        recordPageNew (s.mem n)
        pure (s.mem n)) { ((s.loaded n).loaded (n + 4)) with
      pages := { s.pages with freeList := s.mem (n + 4) } } := by
  have next : pageNextField n = n + 4 := Word32.add_eq word
  unfold pageNewWith getPageFreeList
  rw [Prog.bind_of_ok (Prog.read_run _ _), head, if_pos pos, next, pmaField]
  rfl

/-- **What `page_new` hands over**: the frame noted in the node it popped, or the one
behind all others.  The other nodes and the words below the heap are left alone. -/
structure NewPage (s : Sys PageTables) (P : Heap) (nodes : List ℕ) (pma : ℕ)
    (s' : Sys PageTables) (rest : List ℕ) : Prop where
  source : (nodes = [] ∧ rest = [] ∧ pma = s.pages.heapEndPma ∧
      s'.pages.heapEndPma = Word32.add s.pages.heapEndPma pageSize) ∨
    (s'.pages.heapEndPma = s.pages.heapEndPma ∧ ∃ n, nodes = n :: rest ∧ pma = s.mem n)
  listed : ∀ n ∈ rest, n ∈ nodes ∧ s'.mem n = s.mem n
  below : ∀ a < P.first, s'.mem a = s.mem a
  trace : s'.pages.trace = s.pages.trace
  log : ∃ es, s'.log = .pageNew pma s'.pages :: (es ++ s.log) ∧
    ∀ e ∈ es, ∃ a mapped, e = .load a mapped ∨ e = .store a mapped

/-- **`page_new` in an open state**, whatever the end-of-heap branch of `kfree`
does: at most one node is popped, and the heap stays open. -/
theorem pageNewWith_open (openP : OpenKernel s P nodes) :
    ∃ pma s' Q popped rest,
      (∀ atEnd : ℕ → ℕ → KM PageTables Unit, pageNewWith (freeBy atEnd) s = .ok (pma, s')) ∧
      Supplied s P nodes s' Q popped rest ∧ s'.pages.table = s.pages.table ∧
      NewPage s P nodes pma s' rest := by
  cases nodes with
  | nil =>
      have empty : s.pages.freeList = 0 := PointerList.singly_nil.mp openP.list
      refine ⟨_, _, P, [], [], fun atEnd => pageNewWith_nil (freeBy atEnd) empty,
        ⟨?_, rfl, Popped.refl P, rfl⟩, rfl,
        ⟨Or.inl ⟨rfl, rfl, rfl, rfl⟩, fun _ none => absurd none List.not_mem_nil, fun _ _ => rfl,
          rfl, [], rfl, fun _ none => absurd none List.not_mem_nil⟩⟩
      exact openP.congr rfl rfl rfl
  | cons n rest =>
      obtain ⟨head, nonnull, list⟩ := PointerList.singly_cons.mp openP.list
      have liveN := openP.live n List.mem_cons_self
      have range := P.range liveN.1
      have bound := P.bound
      unfold nodeChunk pageFreeNodeSize at range
      dsimp only at range
      have heap : OpenHeap { ((s.loaded n).loaded (n + 4)) with
          pages := { s.pages with freeList := s.mem (n + 4) } } P :=
        ⟨openP.heap.rep.congr rfl (fun _ _ => ⟨rfl, rfl⟩) (fun _ _ _ => ⟨rfl, rfl⟩) rfl,
          openP.heap.start, openP.heap.ahead, openP.heap.terminal⟩
      obtain ⟨Q, t, run, openQ, freed, ending⟩ := heap.free liveN
      have touch := (run fun _ _ => pure ()).2
      -- the remaining nodes are other blocks, so the call does not touch them
      have others : ∀ m ∈ rest, P.Live (nodeChunk m) ∧ nodeChunk m ≠ nodeChunk n := by
        intro m member
        have nodup := List.nodup_cons.mp openP.list.nodup
        refine ⟨openP.live m (List.mem_cons_of_mem _ member), fun same => ?_⟩
        exact nodup.1 (nodeChunk_injective same ▸ member)
      have listT : PageNodes t rest := by
        refine PageNodes.touch (s := { ((s.loaded n).loaded (n + 4)) with
          pages := { s.pages with freeList := s.mem (n + 4) } }) ?_ touch others
        exact list
      refine ⟨s.mem n, { t with log := .pageNew (s.mem n) t.pages :: t.log }, Q, [n], rest,
        fun atEnd => ?_, ⟨?_, rfl, Popped.of_freed freed, ending⟩, ?_, ?_, ?_, ?_, ?_, ?_⟩
      · rw [pageNewWith_cons _ head nonnull (by omega)]
        exact Prog.bind_of_ok (run atEnd).1
      · have openT : OpenKernel t Q rest := ⟨openQ, listT, fun m member =>
          freed.keeps (others m member).1 (others m member).2⟩
        exact openT.congr rfl rfl rfl
      · change t.pages.table = _
        rw [touch.pages]
      · refine Or.inr ⟨?_, n, rfl, rfl⟩
        change t.pages.heapEndPma = _
        rw [touch.pages]
      · intro m member
        refine ⟨List.mem_cons_of_mem _ member, touch.mem m fun inside => ?_⟩
        refine inside.2.2 _ (others m member) ⟨le_rfl, ?_⟩
        exact Nat.lt_add_of_pos_right (show 0 < pageFreeNodeSize by decide)
      · intro a low
        exact touch.mem a fun inside => absurd low (Nat.not_lt.mpr inside.1)
      · change t.pages.trace = _
        rw [touch.pages]
      · obtain ⟨es, logEq, accesses⟩ := touch.log
        refine ⟨es ++ [.load (n + 4) (PageLayer.mapped s.pages (n + 4)),
          .load n (PageLayer.mapped s.pages n)], ?_, ?_⟩
        · rw [List.append_assoc]
          exact congrArg (List.cons _) logEq
        · intro e member
          rcases List.mem_append.mp member with late | early
          · obtain ⟨a, -, shape⟩ := accesses e late
            exact ⟨a, _, shape⟩
          · rcases List.mem_cons.mp early with rfl | last
            · exact ⟨_, _, Or.inl rfl⟩
            · exact ⟨_, _, Or.inl (List.mem_singleton.mp last)⟩

/-- `page_new` is a supplier of the kernel. -/
theorem pageNew_supplies (first depth : ℕ) : Supplies first (pageNew (depth + 1)) := by
  intro s P nodes _ openP
  obtain ⟨pma, s', Q, popped, rest, run, supplied, table, -⟩ := pageNewWith_open openP
  exact ⟨pma, s', Q, popped, rest, run _, supplied, table⟩

/-! ## The page loop -/

section Loop

variable {first : ℕ} {getPagePma getPagePma' : KM PageTables ℕ}

/-- Writing an entry does not concern the heap. -/
theorem OpenKernel.setEntry {vma entry : ℕ} {u : Unit} (openP : OpenKernel s P nodes)
    (returned : pageSetEntry vma entry s = .ok (u, s')) : OpenKernel s' P nodes := by
  obtain ⟨old, -, rfl⟩ := pageSetEntry_eq_ok.mp returned
  exact openP.congr rfl rfl rfl

/-- **The page loop in an open state**, for any supplier of the kernel. -/
theorem allocMapPages_open (supplies : Supplies first getPagePma) {bound : ℕ} {u : Unit} :
    ∀ fuel page {s s' : Sys PageTables} {P : Heap} {nodes : List ℕ}, P.first = first →
      OpenKernel s P nodes → allocMapPages getPagePma bound fuel page s = .ok (u, s') →
      ∃ Q popped rest, Supplied s P nodes s' Q popped rest
  | 0, _, _, _, _, _, _, _, returned => by cases returned
  | fuel + 1, page, s, s', P, nodes, same, openP, returned => by
      unfold allocMapPages at returned
      split at returned
      next more =>
        obtain ⟨pma, s₁, Q, popped, rest, run, supplied, -⟩ := supplies _ _ _ same openP
        rw [Prog.bind_of_ok run] at returned
        obtain ⟨u₂, s₂, set, returned⟩ := Prog.bind_eq_ok.mp returned
        have ctxt₂ : s₂.ctxt = s₁.ctxt := (pageSetEntry_quiet _ _ _ _ _ set).ctxt
        have open₂ := supplied.openQ.setEntry set
        obtain ⟨R, later, rest', supplied'⟩ := allocMapPages_open supplies fuel _
          (supplied.heaps.first.trans same) open₂ returned
        have both : Supplied s P nodes s₂ Q popped rest :=
          ⟨open₂, supplied.nodes, supplied.heaps, by rw [ctxt₂, supplied.heapEnd]⟩
        exact ⟨R, popped ++ later, rest', both.trans supplied'⟩
      next done =>
        cases returned
        exact ⟨P, [], nodes, Supplied.refl openP⟩

end Loop

/-! ## The calls -/

section Calls

variable {getPagePma getPagePma' : KM PageTables ℕ} {alignment target n v : ℕ}

/-- The heap after an extension: the padding, without the nodes that were popped,
and the new block. -/
structure Extension (H : Heap) (target n : ℕ) (popped : List ℕ) (M : Heap) : Prop where
  first : M.first = H.first
  stop : M.stop = target + n + 8
  live : (popped.map nodeChunk ++ liveOf M.chunks).Perm (⟨target, n, false⟩ :: liveOf H.chunks)
  covered : ∀ n ∈ popped, Covered M (nodeChunk n)
  block : M.Live ⟨target, n, false⟩
  fresh : H.stop ≤ target

/-- The open state in which the page loop of an extension starts. -/
theorem KernelHeap.opened {s₁ : Sys PageTables} (kernel : KernelHeap s H nodes)
    (padded : Padded H target P) (touch : Touch (Footprint H.first target H.Live) s s₁)
    (openP : OpenHeap { s₁ with ctxt := { s₁.ctxt with heapEnd := target + n + 8 } } P) :
    OpenKernel { s₁ with ctxt := { s₁.ctxt with heapEnd := target + n + 8 } } P nodes :=
  have list : PageNodes s₁ nodes := kernel.list.touch touch kernel.live
  ⟨openP, list, fun m member => padded.keepsLive _ (kernel.live m member)⟩

/-- **The extension of the kernel heap**, when it returns. -/
theorem Supplies.extendHeap_returned (supplies : Supplies H.first getPagePma)
    (kernel : KernelHeap s H nodes) (aligned : align H.stop alignment = target)
    (le : H.stop ≤ target) (multT : target % 8 = 0) (pos : 0 < n) (mult : n % 8 = 0)
    (fits : target + n + 8 < 2 ^ 32)
    (returned : extendHeap getPagePma alignment n s = .ok (v, s')) :
    ∃ M popped rest, nodes = popped ++ rest ∧ KernelHeap s' M rest ∧ v = target ∧
      Extension H target n popped M := by
  rcases extendHeap_opens kernel.ctx kernel.terminal aligned le multT fits with
    ⟨-, dies⟩ | ⟨P, s₁, padded, touch, -, -, openP, split⟩
  · rw [dies] at returned
    cases returned
  rw [split] at returned
  obtain ⟨u, s₂, pages, returned⟩ := Prog.bind_eq_ok.mp returned
  obtain ⟨Q, popped, rest, supplied⟩ := allocMapPages_open supplies _ _ padded.first
    (kernel.opened padded touch openP) pages
  have stopQ : Q.stop = target := supplied.heaps.stop.trans padded.stop
  subst stopQ
  have liveQ : KeepsLive Q Q.Live := fun _ kept => kept
  obtain ⟨s₃, finish, ctx, terminal⟩ := supplied.openQ.heap.finish pos mult fits
    supplied.heapEnd liveQ
  rw [Prog.bind_of_ok finish.1] at returned
  cases returned
  have live := liveOf_grow (P := Q) pos mult fits
  refine ⟨Q.grow n pos mult fits, popped, rest, supplied.nodes,
    ⟨ctx, fun _ => terminal, supplied.openQ.list.touch finish.2 supplied.openQ.live,
      fun m member => ?_⟩, rfl, supplied.heaps.first.trans padded.first, rfl, ?_,
    fun m member => ?_, mem_liveOf.mp (live.mem_iff.mpr List.mem_cons_self), le⟩
  · refine mem_liveOf.mp (live.mem_iff.mpr (List.mem_cons_of_mem _ ?_))
    exact mem_liveOf.mpr (supplied.openQ.live m member)
  · refine (live.append_left _).trans (List.perm_middle.trans (List.Perm.cons _ ?_))
    rw [← padded.live]
    exact supplied.heaps.live
  · obtain ⟨e, memE, covers⟩ := supplied.heaps.covered m member
    exact ⟨e, List.mem_append_left _ memE, covers⟩

/-- `alloc` on the kernel heap extends it, or finds a block without its supplier.
Either way the search writes to no block in use. -/
theorem KernelHeap.alloc_cases {bytes : ℕ} (kernel : KernelHeap s H nodes) (alignment : ℕ)
    (request : bytes + 15 < 2 ^ 32) :
    (Extends s alignment bytes ∧ (alignment = kmMinAllocSize →
        Unsuitable H (roundBytes bytes) H.order) ∧
      ∃ t, KernelHeap t H nodes ∧ Touch (Footprint H.first H.stop H.Live) s t ∧
      ∀ getPagePma : KM PageTables ℕ,
        alloc getPagePma alignment bytes s = extendHeap getPagePma alignment (roundBytes bytes) t) ∨
    (¬ Extends s alignment bytes ∧ ∃ v t M, KernelHeap t M nodes ∧
      Touch (Footprint H.first H.stop H.Live) s t ∧ Found H (roundBytes bytes) v M ∧
      ∀ getPagePma : KM PageTables ℕ, alloc getPagePma alignment bytes s = .ok (v, t)) := by
  rcases TrashOS.alloc_cases kernel.ctx kernel.terminal alignment request with
    ⟨finds, v, us, ws, M, t, -, -, found, ctx, terminal, touch, split⟩ |
    ⟨extends_, unsuitable, t, ctx, terminal, touch, split⟩
  · have list := kernel.list.touch touch kernel.live
    refine Or.inr ⟨finds, v, t, M, ⟨ctx, fun _ => terminal, list, fun m member => ?_⟩,
      touch, found, split⟩
    refine mem_liveOf.mp (found.live.mem_iff.mpr (List.mem_cons_of_mem _ ?_))
    exact mem_liveOf.mpr (kernel.live m member)
  · have list := kernel.list.touch touch kernel.live
    exact Or.inl ⟨extends_, unsuitable, t, ⟨ctx, terminal, list, kernel.live⟩, touch, split⟩

end Calls

/-! ## One node at the end of the heap -/

/-- The heap of one 8-byte block. -/
def oneNodeHeap : Heap where
  first := 0x1000
  chunks := [nodeChunk 0x1008]
  order := []
  stop := 0x1018
  aligned := by decide
  tiled := by simp [nodeChunk, pageFreeNodeSize]
  bound := by decide
  members := by decide
  coalesced := by simp

/-- A kernel whose page list has one node, the last block of its heap. -/
def oneNodeKernel : Sys PageTables where
  mem a := if a = 0x1004 ∨ a = 0x1010 then 8 else if a = 0x1008 then 0x300000 else 0
  ctxt := ⟨0, 0x1000, 0x1018⟩
  pages :=
    { dir := fun _ => 0
      table := fun idx => if idx = 0 then some fun _ => 0 else none
      freeList := 0x1008
      heapEndPma := 0x400000
      trace := [] }
  log := []

theorem oneNodeKernel_wellFormed : KernelHeap oneNodeKernel oneNodeHeap [0x1008] where
  ctx :=
    { rep :=
        { base := rfl
          ownTag := by decide
          nextTag := by decide
          links := rfl }
      start := by decide +kernel
      atEnd := rfl
      closed := by simp [Heap.Closed, oneNodeHeap, nodeChunk] }
  terminal := fun _ => rfl
  list := by
    unfold PageNodes
    simp [oneNodeKernel]
  live := by
    intro n member
    rw [List.mem_singleton.mp member]
    exact ⟨List.mem_singleton.mpr rfl, rfl⟩

end TrashOS
