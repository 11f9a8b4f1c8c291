import TrashOS.Heap.FirstFit
import TrashOS.Heap.Run
import TrashOS.Page.Kernel

/-!
# Shrinking the kernel heap

When `kfree` finds its block at the end of the kernel heap, it hands the pages of
the block to `page_free`, and every call asks `kmalloc` for a list node while
`ctxt->end` still lies behind the block.  As long as the free list serves these
requests, the nodes lie below the block and the heap shrinks as it should.  The
first request it cannot serve puts a node behind the end that `kfree` is about to
set.

`pageFree_found` and `pageFree_returned` are one call of `page_free`, `freeEach_found`
and `freeEach_room` the loop.  How many nodes the free list has room for is
counted by `roomOf`; `kfree_keeps_iff` compares it with the pages to release.
-/

namespace TrashOS

/-! ## Room for nodes -/

/-- How many list nodes a free chunk of `size` bytes can serve, one after the other. -/
def nodeRoom (size : ℕ) : ℕ := if size % 16 = 8 then (size + 8) / 16 else size / 16 - 1

/-- How many list nodes the free ones of these chunks can serve. -/
def roomOf (chunks : List Chunk) : ℕ :=
  ((chunks.filter fun c => c.free).map fun c => nodeRoom c.size).sum

section Room

variable {H M : Heap} {v : ℕ} {x c : Chunk} {pre post : List Chunk}

@[simp] theorem roomOf_append (xs ys : List Chunk) : roomOf (xs ++ ys) = roomOf xs + roomOf ys := by
  unfold roomOf
  rw [List.filter_append, List.map_append, List.sum_append]

theorem roomOf_cons_free (isFree : c.free = true) (cs : List Chunk) :
    roomOf (c :: cs) = nodeRoom c.size + roomOf cs := by
  unfold roomOf
  rw [List.filter_cons_of_pos isFree]
  rfl

theorem roomOf_cons_used (used : c.free = false) (cs : List Chunk) :
    roomOf (c :: cs) = roomOf cs := by
  unfold roomOf
  rw [List.filter_cons_of_neg (by rw [used]; exact Bool.false_ne_true)]

/-- There is room if and only if some chunk is suitable. -/
theorem room_pos_iff : 0 < roomOf H.chunks ↔ CanServe H pageFreeNodeSize := by
  have pos : ∀ c ∈ H.chunks, (0 < nodeRoom c.size ↔ Suitable pageFreeNodeSize c) := by
    intro c memC
    have range := H.range memC
    unfold Suitable pageFreeNodeSize nodeRoom
    split <;> omega
  unfold roomOf
  rw [List.sum_pos_iff_exists_pos_nat]
  constructor
  · rintro ⟨n, member, some⟩
    obtain ⟨c, listed, rfl⟩ := List.mem_map.mp member
    obtain ⟨memC, isFree⟩ := List.mem_filter.mp listed
    exact ⟨c, memC, isFree, (pos c memC).mp some⟩
  · rintro ⟨c, memC, isFree, suitable⟩
    exact ⟨_, List.mem_map.mpr ⟨c, List.mem_filter.mpr ⟨memC, isFree⟩, rfl⟩,
      (pos c memC).mpr suitable⟩

/-- A free chunk before the last one. -/
theorem split_before_last (chunks : H.chunks = pre ++ [x]) (used : x.free = false)
    {p q : List Chunk} (split : H.chunks = p ++ c :: q) (isFree : c.free = true) :
    ∃ q', q = q' ++ [x] ∧ pre = p ++ c :: q' := by
  rcases List.eq_nil_or_concat q with rfl | ⟨q', last, rfl⟩
  · obtain ⟨-, same⟩ := List.append_inj' (chunks.symm.trans split) rfl
    cases same
    rw [used] at isFree
    cases isFree
  · rw [List.concat_eq_append] at split ⊢
    have parts : pre ++ [x] = (p ++ c :: q') ++ [last] := by
      rw [← chunks, split, List.append_assoc, List.cons_append]
    obtain ⟨rfl, same⟩ := List.append_inj' parts rfl
    cases same
    exact ⟨q', rfl, rfl⟩

/-- **A node takes room for one node.** -/
theorem Found.room (found : Found H pageFreeNodeSize v M) :
    roomOf H.chunks = roomOf M.chunks + 1 := by
  cases found with
  | @take p q c split isFree fit =>
      change _ = roomOf (p ++ ⟨c.vma, c.size, false⟩ :: q) + 1
      rw [split, roomOf_append, roomOf_cons_free isFree, roomOf_append, roomOf_cons_used rfl, fit]
      have one : nodeRoom pageFreeNodeSize = 1 := rfl
      omega
  | @cut p q c split isFree pos mult room =>
      have range := H.range (c := c) (by simp [split])
      change _ = roomOf (p ++ ⟨c.vma, pageFreeNodeSize, false⟩ ::
        ⟨c.vma + pageFreeNodeSize + 8, c.size - pageFreeNodeSize - 8, true⟩ :: q) + 1
      rw [split, roomOf_append, roomOf_cons_free isFree, roomOf_append, roomOf_cons_used rfl,
        roomOf_cons_free rfl]
      unfold pageFreeNodeSize at room
      have one : nodeRoom c.size = nodeRoom (c.size - pageFreeNodeSize - 8) + 1 := by
        unfold nodeRoom pageFreeNodeSize
        split <;> split <;> omega
      dsimp only
      omega

/-- The chunk at the end stays, and the one before it stays in use. -/
theorem Found.node (found : Found H pageFreeNodeSize v M) (chunks : H.chunks = pre ++ [x])
    (used : x.free = false) (closed : ∀ a ∈ pre.getLast?, a.free = false) :
    ∃ pre', M.chunks = pre' ++ [x] ∧ (∀ a ∈ pre'.getLast?, a.free = false) ∧
      (⟨v, pageFreeNodeSize, false⟩ : Chunk) ∈ pre' ∧ ∀ d ∈ pre, d.free = false → d ∈ pre' := by
  cases found with
  | @take p q c split isFree fit =>
      obtain ⟨q', rfl, rfl⟩ := split_before_last chunks used split isFree
      refine ⟨p ++ ⟨c.vma, pageFreeNodeSize, false⟩ :: q', ?_, ?_,
        List.mem_append_right _ List.mem_cons_self, fun d member usedD => ?_⟩
      · change p ++ ⟨c.vma, c.size, false⟩ :: (q' ++ [x]) = _
        rw [fit, List.append_assoc, List.cons_append]
      · rcases List.eq_nil_or_concat q' with rfl | ⟨q'', last, rfl⟩
        · simp
        · simpa [List.getLast?_cons] using closed
      · rcases List.mem_append.mp member with early | late
        · exact List.mem_append_left _ early
        · rcases List.mem_cons.mp late with rfl | late
          · rw [isFree] at usedD
            cases usedD
          · exact List.mem_append_right _ (List.mem_cons_of_mem _ late)
  | @cut p q c split isFree pos mult room =>
      obtain ⟨q', rfl, rfl⟩ := split_before_last chunks used split isFree
      refine ⟨p ++ ⟨c.vma, pageFreeNodeSize, false⟩ ::
        ⟨c.vma + pageFreeNodeSize + 8, c.size - pageFreeNodeSize - 8, true⟩ :: q', ?_, ?_,
        List.mem_append_right _ List.mem_cons_self, fun d member usedD => ?_⟩
      · change p ++ _ :: _ :: (q' ++ [x]) = _
        rw [List.append_assoc, List.cons_append, List.cons_append]
      · -- the rest of the chunk is not the last one, since the chunk was not
        rcases List.eq_nil_or_concat q' with rfl | ⟨q'', last, rfl⟩
        · exact absurd (closed c (by simp)) (by rw [isFree]; exact Bool.noConfusion)
        · simpa [List.getLast?_cons] using closed
      · rcases List.mem_append.mp member with early | late
        · exact List.mem_append_left _ early
        · rcases List.mem_cons.mp late with rfl | late
          · rw [isFree] at usedD
            cases usedD
          · exact List.mem_append_right _
              (List.mem_cons_of_mem _ (List.mem_cons_of_mem _ late))

end Room

/-! ## One call of `page_free` -/

section Note

variable {s s' t : Sys PageTables} {H M : Heap} {nodes : List ℕ} {node p e : ℕ}

/-- The state after `page_free` noted the frame of the entry `e` in a new node and
unmapped its page. -/
def Sys.noted (t : Sys PageTables) (node p e : ℕ) : Sys PageTables where
  mem := Function.update (Function.update t.mem node (e &&& Word32.not 0xfff)) (node + 4)
    t.pages.freeList
  ctxt := t.ctxt
  pages := { t.pages.write p (e &&& Word32.not pagePresent) with
    freeList := node
    trace := .invlpg p :: (t.pages.write p (e &&& Word32.not pagePresent)).trace }
  log := .pageRelease (e &&& Word32.not 0xfff) ::
    .store (node + 4) (PageLayer.mapped t.pages (node + 4)) ::
    .store node (PageLayer.mapped t.pages node) :: t.log

/-- `page_free` with a page that has an entry. -/
theorem pageFreeWith_run {kmalloc : ℕ → KM PageTables ℕ} (word : node + 4 < 2 ^ 32)
    (served : kmalloc pageFreeNodeSize s = .ok (node, t)) (there : t.pages.entryOf p = some e) :
    pageFreeWith kmalloc p s = .ok ((), t.noted node p e) := by
  have next : pageNextField node = node + 4 := Word32.add_eq word
  have got : onPages (pageGetPma p) t = .ok (e &&& Word32.not 0xfff, t) :=
    onPages_eq_ok.mpr ⟨t.pages, pageGetPma_eq_ok.mpr ⟨e, there, rfl, rfl⟩, rfl⟩
  unfold pageFreeWith getPageFreeList
  rw [Prog.bind_of_ok served, Prog.bind_of_ok got, Prog.bind_of_ok (Prog.read_run _ _), next,
    pmaField, Prog.bind_of_ok rfl, Prog.bind_of_ok rfl]
  have unmapped : pageUnmap p t.pages = .ok ((), _) := pageUnmap_eq_ok.mpr ⟨e, there, rfl⟩
  have done : onPages (pageUnmap p)
      ((t.stored node (e &&& Word32.not 0xfff)).stored (node + 4) t.pages.freeList) = .ok ((), _) :=
    onPages_eq_ok.mpr ⟨_, unmapped, rfl⟩
  exact (Prog.bind_of_ok done).trans rfl

theorem nodeChunk_holds (m : ℕ) : (nodeChunk m).Holds m ∧ (nodeChunk m).Holds (m + 4) := by
  unfold Chunk.Holds Chunk.stop nodeChunk pageFreeNodeSize
  dsimp only
  omega

/-- Only the words of the node are written. -/
theorem noted_mem_of_off {a : ℕ} (off : ¬ (nodeChunk node).Holds a) :
    (t.noted node p e).mem a = t.mem a := by
  have differ : a ≠ node ∧ a ≠ node + 4 :=
    ⟨fun eq => off (eq ▸ (nodeChunk_holds node).1), fun eq => off (eq ▸ (nodeChunk_holds node).2)⟩
  exact (Function.update_of_ne differ.2 _ _).trans (Function.update_of_ne differ.1 _ _)

theorem noted_mem_node : (t.noted node p e).mem node = e &&& Word32.not 0xfff := by
  have differ : node ≠ node + 4 := by omega
  exact (Function.update_of_ne differ _ _).trans (Function.update_self _ _ _)

/-- The other nodes lie in other blocks. -/
theorem KernelHeap.off_node (kernel : KernelHeap t M nodes) (live : M.Live (nodeChunk node))
    (fresh : node ∉ nodes) {n : ℕ} (member : n ∈ nodes) {a : ℕ} (inside : (nodeChunk n).Holds a) :
    ¬ (nodeChunk node).Holds a := fun holds => by
  have equal := Heap.holds_unique live.1 (kernel.live n member).1 holds inside
  exact fresh (nodeChunk_injective equal ▸ member)

/-- The new node is listed, and nothing else of the heap changes. -/
theorem KernelHeap.noted (kernel : KernelHeap t M nodes) (live : M.Live (nodeChunk node))
    (fresh : node ∉ nodes) (p e : ℕ) : KernelHeap (t.noted node p e) M (node :: nodes) := by
  have writes : ClientWrites (liveOf M.chunks) t { t.noted node p e with log := t.log } :=
    ⟨fun a off => noted_mem_of_off (p := p) (e := e) (off _ (mem_liveOf.mpr live)), rfl, rfl⟩
  obtain ⟨ctx, terminal⟩ := writes.context kernel.ctx (List.Perm.refl _)
  have range := M.range live.1
  refine ⟨⟨⟨ctx.rep.base, ctx.rep.ownTag, ctx.rep.nextTag, ctx.rep.links⟩, ctx.start, ctx.atEnd,
    ctx.closed⟩, fun nonempty => terminal (kernel.terminal nonempty), ?_, ?_⟩
  · refine PointerList.singly_cons.mpr ⟨rfl, ?_, ?_⟩
    · unfold nodeChunk at range
      dsimp only at range
      omega
    · have word : (t.noted node p e).mem (node + 4) = t.pages.freeList :=
        Function.update_self _ _ _
      rw [word]
      refine PointerList.Singly.congr kernel.list fun m member => ?_
      exact noted_mem_of_off (kernel.off_node live fresh member (nodeChunk_holds m).2)
  · intro m member
    rcases List.mem_cons.mp member with rfl | member
    · exact live
    · exact kernel.live m member

/-- What the search finds is in no list of blocks in use. -/
theorem Found.fresh {v : ℕ} (found : Found H pageFreeNodeSize v M)
    (live : ∀ n ∈ nodes, H.Live (nodeChunk n)) : M.Live (nodeChunk v) ∧ v ∉ nodes := by
  have perm := found.live
  have nodup := perm.nodup_iff.mp (M.nodup_chunks.filter _)
  refine ⟨mem_liveOf.mp (perm.mem_iff.mpr List.mem_cons_self), fun member => ?_⟩
  exact (List.nodup_cons.mp nodup).1 (mem_liveOf.mpr (live v member))

theorem roundBytes_node : roundBytes pageFreeNodeSize = pageFreeNodeSize := by decide +kernel

/-- **`page_free`, when the free list has room for its node.** -/
theorem pageFree_found (kernel : KernelHeap s H nodes) (room : 0 < roomOf H.chunks)
    (there : s.pages.entryOf p = some e) :
    ∃ node M t, (∀ depth, pageFree (depth + 1) p s = .ok ((), t.noted node p e)) ∧
      Found H pageFreeNodeSize node M ∧ KernelHeap (t.noted node p e) M (node :: nodes) ∧
      Touch (Footprint H.first H.stop H.Live) s t := by
  rcases kernel.alloc_cases kmMinAllocSize (show pageFreeNodeSize + 15 < 2 ^ 32 by decide) with
    ⟨-, unsuitable, -⟩ | ⟨-, node, t, M, kernelT, touch, found, split⟩
  · rw [roundBytes_node] at unsuitable
    exact absurd (room_pos_iff.mp room) ((not_canServe_iff (by decide)).mpr (unsuitable rfl))
  · rw [roundBytes_node] at found
    obtain ⟨live, fresh⟩ := found.fresh kernel.live
    have range := M.range live.1
    have bound := M.bound
    unfold nodeChunk pageFreeNodeSize at range
    dsimp only at range
    refine ⟨node, M, t, fun depth => ?_, found, kernelT.noted live fresh p e, touch⟩
    exact pageFreeWith_run (by omega) (split _) (by rw [touch.pages]; exact there)

/-- **`page_free`, when it returns**: the free list served the node, or the heap grew
by it. -/
theorem pageFree_returned {depth : ℕ} (kernel : KernelHeap s H nodes)
    (below : H.stop ≤ 2 ^ 32 - pageSize)
    (returned : pageFree (depth + 2) p s = .ok ((), s')) :
    (0 < roomOf H.chunks ∧ ∃ node M, Found H pageFreeNodeSize node M ∧
      KernelHeap s' M (node :: nodes)) ∨
    (roomOf H.chunks = 0 ∧ ∃ M rest, KernelHeap s' M (H.stop :: rest) ∧
      M.stop = H.stop + 16 ∧ M.stop ≤ 2 ^ 32 - pageSize) := by
  change pageFreeWith (alloc (pageNew (depth + 1)) kmMinAllocSize) p s = _ at returned
  obtain ⟨node, t, served, behind⟩ := Prog.bind_eq_ok.mp returned
  obtain ⟨pma, t₁, got, -⟩ := Prog.bind_eq_ok.mp behind
  obtain ⟨pages, read, -⟩ := onPages_eq_ok.mp got
  obtain ⟨e, there, -, -⟩ := pageGetPma_eq_ok.mp read
  rcases kernel.alloc_cases kmMinAllocSize (show pageFreeNodeSize + 15 < 2 ^ 32 by decide) with
    ⟨-, unsuitable, t₂, kernelT, -, split⟩ | ⟨-, v, t₂, M, kernelT, -, found, split⟩
  · rw [roundBytes_node] at unsuitable split
    have none := (not_canServe_iff (by decide)).mpr (unsuitable rfl)
    rw [split] at served
    have fits : H.stop + pageFreeNodeSize + 8 < 2 ^ 32 := by
      unfold pageFreeNodeSize pageSize at *
      omega
    obtain ⟨M, popped, rest, listed, kernelM, rfl, extension⟩ :=
      (pageNew_supplies _ depth).extendHeap_returned kernelT
        (align_kmMin H.stop_aligned H.bound) le_rfl H.stop_aligned (by decide) (by decide) fits
        served
    have stop := extension.stop
    have fresh : H.stop ∉ rest := by
      intro member
      have range := H.range (kernel.live H.stop (listed ▸ List.mem_append_right _ member)).1
      unfold nodeChunk at range
      dsimp only at range
      omega
    have room : ¬ 0 < roomOf H.chunks := fun some => none (room_pos_iff.mp some)
    refine Or.inr ⟨by omega, M, rest, ?_, stop, ?_⟩
    · have run := pageFreeWith_run (by unfold pageFreeNodeSize at fits; omega)
        ((split _).trans served) there
      cases run.symm.trans returned
      exact kernelM.noted extension.block fresh p e
    · rw [stop]
      by_contra high
      exact extendHeap_never_returns kernelT.ctx kernelT.terminal fits (Nat.not_le.mp high) served
  · rw [roundBytes_node] at found
    cases (split _).symm.trans served
    obtain ⟨live, fresh⟩ := found.fresh kernel.live
    have range := M.range live.1
    have bound := M.bound
    unfold nodeChunk pageFreeNodeSize at range
    dsimp only at range
    refine Or.inl ⟨room_pos_iff.mpr (found.canServe (by decide)), node, M, found, ?_⟩
    have run := pageFreeWith_run (by omega) (split (pageNew (depth + 1))) there
    cases run.symm.trans returned
    exact kernelT.noted live fresh p e

end Note

/-! ## The loop over the pages of the block -/

/-- The frame in the entry of a page. -/
def frameOf (s : Sys PageTables) (p : ℕ) : ℕ := (s.pages.entryOf p).getD 0 &&& Word32.not 0xfff

/-- The entries of the pages `ps` lost their present bit, the others are as before. -/
structure Unmapped (ps : List ℕ) (s s' : Sys PageTables) : Prop where
  others : ∀ v, v / pageSize ∉ ps.map (fun p => p / pageSize) →
    s'.pages.entryOf v = s.pages.entryOf v
  gone : ∀ v, v / pageSize ∈ ps.map (fun p => p / pageSize) →
    s'.pages.entryOf v = (s.pages.entryOf v).map fun e => e &&& Word32.not pagePresent
  bump : s'.pages.heapEndPma = s.pages.heapEndPma

/-- The chunks of a kernel heap whose last block is being freed: the block `x`, and
the chunks before it, among them those of the nodes. -/
structure Shrinking (H : Heap) (pre : List Chunk) (x : Chunk) (nodes : List ℕ) : Prop where
  chunks : H.chunks = pre ++ [x]
  used : x.free = false
  closed : ∀ a ∈ pre.getLast?, a.free = false
  nodes : ∀ n ∈ nodes, nodeChunk n ∈ pre

/-- The events say that the frames `pmas` were put on the page list, and that nothing
was taken from it. -/
structure Releases (pmas : List ℕ) (es : List (Event PageTables)) : Prop where
  released : ∀ pma ∈ pmas, .pageRelease pma ∈ es
  noNew : ∀ pma pages, .pageNew pma pages ∉ es

theorem Releases.append {pmas pmas' : List ℕ} {es es' : List (Event PageTables)}
    (later : Releases pmas es) (earlier : Releases pmas' es') :
    Releases (pmas ++ pmas') (es ++ es') where
  released pma member := by
    rcases List.mem_append.mp member with late | early
    · exact List.mem_append_left _ (later.released pma late)
    · exact List.mem_append_right _ (earlier.released pma early)
  noNew pma pages member := by
    rcases List.mem_append.mp member with late | early
    · exact later.noNew pma pages late
    · exact earlier.noNew pma pages early

theorem Touch.releases {A : ℕ → Prop} {s s' : Sys PageTables} (touch : Touch A s s') :
    ∃ es, s'.log = es ++ s.log ∧ Releases [] es := by
  obtain ⟨es, logEq, inside⟩ := touch.log
  refine ⟨es, logEq, fun _ none => absurd none List.not_mem_nil, fun pma pages member => ?_⟩
  obtain ⟨a, -, shape | shape⟩ := inside _ member <;> cases shape

/-- What the loop over the pages `ps` does when the free list has room: the nodes
`news` note their frames, the last page first. -/
structure FreedEach (ps : List ℕ) (s : Sys PageTables) (H : Heap) (nodes : List ℕ) (x : Chunk)
    (s' : Sys PageTables) (M : Heap) (pre : List Chunk) (news : List ℕ) : Prop where
  kernel : KernelHeap s' M (news ++ nodes)
  shrinking : Shrinking M pre x (news ++ nodes)
  first : M.first = H.first
  live : (liveOf M.chunks).Perm (news.map nodeChunk ++ liveOf H.chunks)
  unmapped : Unmapped ps s s'
  frames : news.map s'.mem = (ps.map (frameOf s)).reverse
  others : ∀ n ∈ nodes, s'.mem n = s.mem n
  log : ∃ es, s'.log = es ++ s.log ∧ Releases (ps.map (frameOf s)) es

section Loop

variable {s s' : Sys PageTables} {H : Heap} {nodes : List ℕ} {pre : List Chunk} {x : Chunk}

/-- Only the words, the context and the page list matter. -/
theorem KernelHeap.congr (kernel : KernelHeap s H nodes) (mem : s'.mem = s.mem)
    (ctxt : s'.ctxt = s.ctxt) (list : s'.pages.freeList = s.pages.freeList) :
    KernelHeap s' H nodes := by
  obtain ⟨⟨rep, start, atEnd, closed⟩, terminal, nodesList, live⟩ := kernel
  refine ⟨⟨rep.congr (by rw [mem]) (fun c _ => by rw [mem]; exact ⟨rfl, rfl⟩)
    (fun c _ _ => by rw [mem]; exact ⟨rfl, rfl⟩) (by rw [ctxt]), by rw [ctxt]; exact start,
    by rw [ctxt]; exact atEnd, closed⟩, fun nonempty => ?_, ?_, live⟩
  · unfold TerminalClear
    rw [mem]
    exact terminal nonempty
  · unfold PageNodes
    rw [mem, list]
    exact nodesList

theorem Shrinking.room (shrinking : Shrinking H pre x nodes) : roomOf H.chunks = roomOf pre := by
  rw [shrinking.chunks, roomOf_append, roomOf_cons_used shrinking.used]
  rfl

/-- A node from the free list. -/
theorem Shrinking.found {M : Heap} {v : ℕ} (shrinking : Shrinking H pre x nodes)
    (found : Found H pageFreeNodeSize v M) :
    ∃ pre', Shrinking M pre' x (v :: nodes) := by
  obtain ⟨pre', chunks, closed, node, keeps⟩ :=
    found.node shrinking.chunks shrinking.used shrinking.closed
  refine ⟨pre', chunks, shrinking.used, closed, fun n member => ?_⟩
  rcases List.mem_cons.mp member with rfl | member
  · exact node
  · exact keeps _ (shrinking.nodes n member) rfl

/-- One page after another is unmapped. -/
theorem Unmapped.cons {p : ℕ} {ps : List ℕ} {t : Sys PageTables}
    (first : Unmapped [p] s t) (later : Unmapped ps t s')
    (nodup : ((p :: ps).map fun p => p / pageSize).Nodup) : Unmapped (p :: ps) s s' where
  others v other := by
    rw [List.map_cons, List.mem_cons, not_or] at other
    rw [later.others v other.2]
    exact first.others v (by simpa using other.1)
  gone v inside := by
    obtain ⟨fresh, -⟩ := List.nodup_cons.mp nodup
    rcases List.mem_cons.mp inside with same | inside
    · rw [later.others v (same ▸ fresh)]
      exact first.gone v (by simpa using same)
    · rw [later.gone v inside, first.others v]
      rw [List.map_singleton, List.mem_singleton]
      intro same
      rw [same] at inside
      exact fresh inside
  bump := later.bump.trans first.bump

theorem unmapped_nil (s : Sys PageTables) : Unmapped [] s s :=
  ⟨fun _ _ => rfl, fun _ inside => absurd inside List.not_mem_nil, rfl⟩

/-- The page of one call of `page_free`. -/
theorem unmapped_noted {t : Sys PageTables} {node p e : ℕ} (same : t.pages = s.pages)
    (there : s.pages.entryOf p = some e) : Unmapped [p] s (t.noted node p e) where
  others v other := by
    rw [List.map_singleton, List.mem_singleton] at other
    rw [← same]
    exact PageTables.entryOf_write_other other
  gone v inside := by
    rw [List.map_singleton, List.mem_singleton] at inside
    rw [← same] at there ⊢
    have sameEntry : t.pages.entryOf v = t.pages.entryOf p := PageTables.entryOf_congr inside
    rw [sameEntry, there]
    refine (PageTables.entryOf_write_same inside).trans ?_
    rw [there]
    rfl
  bump := by
    rw [← same]
    rfl

/-- **The loop, when the free list has room for a node for each page.** -/
theorem freeEach_found :
    ∀ (ps : List ℕ) {s : Sys PageTables} {H : Heap} {nodes : List ℕ} {pre : List Chunk},
      KernelHeap s H nodes → Shrinking H pre x nodes →
      (ps.map fun p => p / pageSize).Nodup → ps.length ≤ roomOf H.chunks →
      (∀ p ∈ ps, (s.pages.entryOf p).isSome) →
      ∃ news M pre' s', (∀ depth, freeEach (pageFree (depth + 1)) ps s = .ok ((), s')) ∧
        FreedEach ps s H nodes x s' M pre' news
  | [], s, H, nodes, pre, kernel, shrinking, _, _, _ =>
      ⟨[], H, pre, s, fun _ => rfl, kernel, shrinking, rfl, List.Perm.refl _,
        unmapped_nil s, rfl, fun _ _ => rfl, [], rfl, fun _ none => absurd none List.not_mem_nil,
        fun _ _ => List.not_mem_nil⟩
  | p :: ps, s, H, nodes, pre, kernel, shrinking, nodup, room, entries => by
      have some : 0 < roomOf H.chunks := Nat.lt_of_lt_of_le (Nat.succ_pos _) room
      obtain ⟨e, there⟩ := Option.isSome_iff_exists.mp (entries p List.mem_cons_self)
      have kernel₁ : KernelHeap { s with log := .pageFree p :: s.log } H nodes :=
        kernel.congr rfl rfl rfl
      obtain ⟨node, M, t, run, found, kernelM, touch⟩ := pageFree_found kernel₁ some there
      obtain ⟨pre₁, shrinking₁⟩ := shrinking.found found
      have roomEq := found.room
      have first : Unmapped [p] s (t.noted node p e) := unmapped_noted touch.pages there
      have sameEntry : ∀ q ∈ ps, (t.noted node p e).pages.entryOf q = s.pages.entryOf q := by
        intro q member
        have fresh := (List.nodup_cons.mp nodup).1
        refine first.others q ?_
        rw [List.map_singleton, List.mem_singleton]
        exact fun same => fresh (List.mem_map.mpr ⟨q, member, same⟩)
      have entries₁ : ∀ q ∈ ps, ((t.noted node p e).pages.entryOf q).isSome := by
        intro q member
        rw [sameEntry q member]
        exact entries q (List.mem_cons_of_mem _ member)
      have frames : ps.map (frameOf (t.noted node p e)) = ps.map (frameOf s) := by
        refine List.map_congr_left fun q member => ?_
        unfold frameOf
        rw [sameEntry q member]
      have frame : frameOf s p = e &&& Word32.not 0xfff := by
        unfold frameOf
        rw [there]
        rfl
      obtain ⟨news, M', pre', s', runs, later⟩ := freeEach_found ps kernelM shrinking₁
        (List.nodup_cons.mp nodup).2 (by rw [List.length_cons] at room; omega) entries₁
      refine ⟨news ++ [node], M', pre', s', fun depth => ?_, ?_, ?_, later.first.trans found.first,
        ?_, first.cons later.unmapped nodup, ?_, fun n member => ?_, ?_⟩
      · unfold freeEach
        rw [Prog.bind_of_ok (m := record (.pageFree p)) rfl, Prog.bind_of_ok (run depth)]
        exact runs depth
      · rw [List.append_assoc]
        exact later.kernel
      · rw [List.append_assoc]
        exact later.shrinking
      · rw [List.map_append, List.append_assoc]
        exact later.live.trans (found.live.append_left _)
      · rw [List.map_append, later.frames, frames, List.map_singleton,
          later.others node List.mem_cons_self, noted_mem_node, List.map_cons, List.reverse_cons,
          frame]
      · rw [later.others n (List.mem_cons_of_mem _ member)]
        obtain ⟨live, fresh⟩ := found.fresh kernel.live
        have liveN : M.Live (nodeChunk n) := kernelM.live n (List.mem_cons_of_mem _ member)
        refine (noted_mem_of_off fun holds => ?_).trans (touch.mem n fun inside => ?_)
        · have equal := Heap.holds_unique live.1 liveN.1 holds (nodeChunk_holds n).1
          exact fresh (nodeChunk_injective equal ▸ member)
        · exact inside.2.2 _ (kernel.live n member) (nodeChunk_holds n).1
      · obtain ⟨es, logEq, releases⟩ := later.log
        obtain ⟨accesses, logT, inside⟩ := touch.log
        refine ⟨es ++ .pageRelease (e &&& Word32.not 0xfff) ::
          .store (node + 4) (PageLayer.mapped t.pages (node + 4)) ::
          .store node (PageLayer.mapped t.pages node) :: (accesses ++ [.pageFree p]), ?_, ?_, ?_⟩
        · rw [logEq, List.append_assoc]
          refine congrArg (es ++ ·) ?_
          change _ :: _ :: _ :: t.log = _
          rw [logT]
          simp
        · intro pma member
          rcases List.mem_cons.mp member with rfl | member
          · rw [frame]
            exact List.mem_append_right _ List.mem_cons_self
          · rw [← frames] at member
            exact List.mem_append_left _ (releases.released pma member)
        · intro pma pages member
          rcases List.mem_append.mp member with late | early
          · exact releases.noNew pma pages late
          · simp only [List.mem_cons, reduceCtorEq, false_or, List.mem_append, List.not_mem_nil,
              or_false] at early
            obtain ⟨a, -, shape | shape⟩ := inside _ early <;> cases shape

/-- **The loop, when it returns**: either there was room for a node for each page, or a
node of the list lies behind the old end. -/
theorem freeEach_room {depth heapEnd : ℕ} {u : Unit} :
    ∀ (ps : List ℕ) {s s' : Sys PageTables} {H : Heap} {nodes : List ℕ}, KernelHeap s H nodes →
      heapEnd ≤ H.stop → H.stop ≤ 2 ^ 32 - pageSize →
      freeEach (pageFree (depth + 2)) ps s = .ok (u, s') →
      ∃ nodes', PageNodes s' nodes' ∧
        (ps.length ≤ roomOf H.chunks ∨ ∃ n ∈ nodes', heapEnd ≤ n) ∧
        ((∃ n ∈ nodes, heapEnd ≤ n) → ∃ n ∈ nodes', heapEnd ≤ n)
  | [], s, s', H, nodes, kernel, _, _, returned => by
      cases returned
      exact ⟨nodes, kernel.list, Or.inl (Nat.zero_le _), id⟩
  | p :: ps, s, s', H, nodes, kernel, behind, below, returned => by
      unfold freeEach at returned
      rw [Prog.bind_of_ok (m := record (.pageFree p)) rfl] at returned
      obtain ⟨u₁, s₁, freed, returned⟩ := Prog.bind_eq_ok.mp returned
      have kernel₀ : KernelHeap { s with log := .pageFree p :: s.log } H nodes :=
        kernel.congr rfl rfl rfl
      rcases pageFree_returned kernel₀ below freed with
        ⟨some, node, M, found, kernelM⟩ | ⟨none, M, rest, kernelM, stop, belowM⟩
      · have stopM := found.stop
        obtain ⟨nodes', list, room, bad⟩ :=
          freeEach_room ps kernelM (show heapEnd ≤ M.stop by omega) (by omega) returned
        refine ⟨nodes', list, ?_, ?_⟩
        · have roomEq := found.room
          rw [List.length_cons]
          exact room.imp (fun le => by omega) id
        · rintro ⟨n, member, high⟩
          exact bad ⟨n, List.mem_cons_of_mem _ member, high⟩
      · obtain ⟨nodes', list, -, bad⟩ :=
          freeEach_room ps kernelM (show heapEnd ≤ M.stop by omega) belowM returned
        have last := bad ⟨H.stop, List.mem_cons_self, behind⟩
        exact ⟨nodes', list, Or.inr last, fun _ => last⟩

end Loop

/-! ## `kfree` -/

section Kfree

variable {s s' : Sys PageTables} {H M : Heap} {nodes : List ℕ} {before post : List Chunk}
  {c : Chunk}

/-- **A well-formed state of the kernel memory layer**: the kernel heap and its page
list, with every page of the heap present and a page table for every page from the
heap on. -/
structure KernelMemory (s : Sys PageTables) (H : Heap) (nodes : List ℕ) : Prop where
  heap : KernelHeap s H nodes
  below : H.stop ≤ 2 ^ 32 - pageSize
  present : PresentBetween s.pages H.first H.stop
  tables : ∀ v, H.first ≤ v → v < 2 ^ 32 → (s.pages.entryOf v).isSome

/-- A block in the hands of a caller: in use, and no node of the page list. -/
structure CallerBlock (H : Heap) (nodes : List ℕ) (c : Chunk) : Prop where
  live : H.Live c
  foreign : ∀ n ∈ nodes, nodeChunk n ≠ c

/-- The search of `free` for neighbours, on the kernel heap. -/
theorem KernelHeap.keeps_others (kernel : KernelHeap s H nodes) (block : CallerBlock H nodes c) :
    ∀ n ∈ nodes, H.Live (nodeChunk n) ∧ nodeChunk n ≠ c :=
  fun n member => ⟨kernel.live n member, block.foreign n member⟩

/-- **`kfree` of a block that does not end up at the end of the heap.** -/
theorem KernelHeap.free_inside (kernel : KernelHeap s H nodes) (block : CallerBlock H nodes c)
    (split : H.chunks = before.reverse ++ c :: post) (more : (absorbNext c post).2 ≠ []) :
    ∃ M s', (∀ pageFree : ℕ → KM PageTables Unit, free pageFree c.vma s = .ok ((), s')) ∧
      KernelHeap s' M nodes ∧ M.first = H.first ∧ M.stop = H.stop ∧
      (c :: liveOf M.chunks).Perm (liveOf H.chunks) ∧
      Touch (Footprint H.first H.stop fun d => H.Live d ∧ d ≠ c) s s' := by
  have live : KeepsLive H fun d => H.Live d ∧ d ≠ c := fun _ kept => kept.1
  have open_c : ¬ (H.Live c ∧ c ≠ c) := fun kept => kept.2 rfl
  have used := block.live.2
  have nonempty : H.chunks ≠ [] := List.ne_nil_of_mem block.live.1
  obtain ⟨M, s', run, rep, first, stop, chunks, ending, word⟩ :=
    freeBy_inside kernel.ctx.rep split used (fun _ => kernel.terminal nonempty) live open_c (by
      rw [kernel.ctx.atEnd]
      exact (coalesce_stop_lt split more).ne')
  have touch := (run fun _ _ => pure ()).2
  have others : (c :: liveOf M.chunks).Perm (liveOf H.chunks) := by
    rw [chunks, liveOf_append, liveOf_cons_free rfl]
    exact liveOf_around split used
  refine ⟨M, s', fun pageFree => (run (shrinkHeap pageFree)).1, ⟨⟨rep, ?_, ?_, ?_⟩, fun _ => ?_,
    kernel.list.touch touch (kernel.keeps_others block), fun n member => ?_⟩, first, stop, others,
    touch⟩
  · rw [first, touch.start]
    exact kernel.ctx.start
  · rw [ending, stop]
    exact kernel.ctx.atEnd
  · -- the last chunk lies behind the freed one, and stays
    intro e last
    refine kernel.ctx.closed e ?_
    have same := absorbNext_getLast (c := c) (p := post) more
    obtain ⟨d, behind, rest⟩ := List.exists_cons_of_ne_nil more
    rw [chunks, rest] at last
    rw [rest] at same
    rw [split]
    cases post with
    | nil => exact absurd rfl more
    | cons f post =>
        simp only [List.getLast?_append, List.getLast?_cons_cons] at last same ⊢
        rw [← same]
        exact last
  · rw [TerminalClear, stop, word]
    exact kernel.terminal nonempty
  · have listed := others.mem_iff.mpr (mem_liveOf.mpr (kernel.live n member))
    exact mem_liveOf.mp ((List.mem_cons.mp listed).resolve_left (block.foreign n member))

/-- **`kfree` of a block at the end of the heap**, up to the loop over its pages. -/
theorem KernelHeap.free_atEnd (kernel : KernelHeap s H nodes) (block : CallerBlock H nodes c)
    (split : H.chunks = before.reverse ++ c :: post) (last : (absorbNext c post).2 = []) :
    ∃ M t, (∀ pageFree : ℕ → KM PageTables Unit,
        free pageFree c.vma s = shrinkHeap pageFree H.stop (coalesce before c post).vma t) ∧
      KernelHeap t M nodes ∧
      Shrinking M (absorbPrev (absorbNext c post).1 before).2.reverse (coalesce before c post)
        nodes ∧
      M.first = H.first ∧ M.stop = H.stop ∧
      (liveOf M.chunks).Perm (coalesce before c post ::
        liveOf (absorbPrev (absorbNext c post).1 before).2.reverse) ∧
      (c :: liveOf (absorbPrev (absorbNext c post).1 before).2.reverse).Perm (liveOf H.chunks) ∧
      Touch (Footprint H.first H.stop fun d => H.Live d ∧ d ≠ c) s t := by
  have live : KeepsLive H fun d => H.Live d ∧ d ≠ c := fun _ kept => kept.1
  have open_c : ¬ (H.Live c ∧ c ≠ c) := fun kept => kept.2 rfl
  have used := block.live.2
  have nonempty : H.chunks ≠ [] := List.ne_nil_of_mem block.live.1
  obtain ⟨M, t, merged, touch, rep, first, stop, chunks, ending, word⟩ :=
    free_merges kernel.ctx.rep split used (fun _ => kernel.terminal nonempty) live open_c
  have usedM : (coalesce before c post).free = false := absorbPrev_used (absorbNext_used used)
  have others := liveOf_around split used
  rw [last, liveOf_nil, List.append_nil] at others
  have stays : ∀ d, H.Live d → d ≠ c →
      d ∈ (absorbPrev (absorbNext c post).1 before).2.reverse := by
    intro d liveD differ
    have listed := others.mem_iff.mpr (mem_liveOf.mpr liveD)
    exact (List.mem_filter.mp ((List.mem_cons.mp listed).resolve_left differ)).1
  rw [last] at chunks
  have atEnd : t.ctxt.heapEnd = M.stop := by rw [ending, kernel.ctx.atEnd, stop]
  have kernelM : KernelHeap t M nodes := by
    refine ⟨⟨rep, ?_, atEnd, ?_⟩, fun _ => ?_,
      kernel.list.touch touch (kernel.keeps_others block), fun n member => ?_⟩
    · rw [first, touch.start]
      exact kernel.ctx.start
    · intro e isLast
      rw [chunks, List.getLast?_concat, Option.mem_some_iff] at isLast
      exact isLast ▸ usedM
    · rw [TerminalClear, stop, word]
      exact kernel.terminal nonempty
    · refine ⟨?_, rfl⟩
      rw [chunks]
      exact List.mem_append_left _
        (stays _ (kernel.live n member) (block.foreign n member))
  have rangeM := M.range (c := coalesce before c post) (by simp [chunks])
  refine ⟨M, t.loaded ((coalesce before c post).vma - 4), fun pageFree => ?_,
    kernelM.congr rfl rfl rfl, ⟨chunks, usedM, absorbPrev_last (Heap.around_of_split split).1,
      fun n member => stays _ (kernel.live n member) (block.foreign n member)⟩, first, stop, ?_,
    others, touch.trans ?_⟩
  · rw [free_eq, merged, freeRelease_atEnd _ rep chunks atEnd, stop]
  · rw [chunks, liveOf_append, liveOf_cons_used usedM]
    exact List.perm_append_singleton _ _
  · refine (Runs.load (A := Footprint H.first H.stop fun d => H.Live d ∧ d ≠ c) ?_).2
    refine ⟨by omega, by omega, fun d kept holds => ?_⟩
    have memD : d ∈ M.chunks := by
      rw [chunks]
      exact List.mem_append_left _ (stays d kept.1 kept.2)
    exact Heap.not_holds_before (c := coalesce before c post) (by simp [chunks]) memD (by omega)
      (by omega) holds

/-- **The free list has room for the nodes of `kfree`**: the block does not end up at
the end of the heap, or the other free chunks have room for a node for each page
start from the block up to the old end. -/
def NodesFit (H : Heap) (before : List Chunk) (c : Chunk) (post : List Chunk) : Prop :=
  (absorbNext c post).2 ≠ [] ∨
    (startsBetween (coalesce before c post).vma (H.stop + 1)).length ≤
      roomOf (absorbPrev (absorbNext c post).1 before).2

/-- What `kfree` does when the free list has room for its nodes: new nodes note the
frames of the pages that were released, in the order of the release backwards. -/
structure Released (H : Heap) (nodes : List ℕ) (c : Chunk) (s : Sys PageTables) (M : Heap)
    (news pages : List ℕ) (s' : Sys PageTables) : Prop where
  memory : KernelMemory s' M (news ++ nodes)
  first : M.first = H.first
  stop : M.stop ≤ H.stop
  live : (c :: liveOf M.chunks).Perm (news.map nodeChunk ++ liveOf H.chunks)
  range : pages = [] ∨ pages.Perm (startsBetween M.stop (H.stop + 1))
  unmapped : Unmapped pages s s'
  frames : news.map s'.mem = (pages.map (frameOf s)).reverse
  others : ∀ n ∈ nodes, s'.mem n = s.mem n
  log : ∃ es, s'.log = es ++ s.log ∧ Releases (pages.map (frameOf s)) es

theorem roomOf_reverse (cs : List Chunk) : roomOf cs.reverse = roomOf cs := by
  unfold roomOf
  rw [List.filter_reverse, List.map_reverse, List.sum_reverse]

/-- **`kfree`, when the free list has room for its nodes.** -/
theorem KernelMemory.kfree_fits (memory : KernelMemory s H nodes)
    (block : CallerBlock H nodes c) (split : H.chunks = before.reverse ++ c :: post)
    (fits : NodesFit H before c post) :
    ∃ M news pages s', (∀ depth, kfree (depth + 1) c.vma s = .ok ((), s')) ∧
      Released H nodes c s M news pages s' ∧ ((absorbNext c post).2 ≠ [] → pages = []) := by
  by_cases last : (absorbNext c post).2 = []
  · have room := fits.resolve_left (not_not_intro last)
    obtain ⟨M, t, run, kernelT, shrinking, first, stop, liveM, liveH, touch⟩ :=
      memory.heap.free_atEnd block split last
    have rangeM := M.range (c := coalesce before c post) (by simp [shrinking.chunks])
    obtain ⟨pages, perm, loop⟩ := releaseLoop_pages H.bound
      (show 0 < (coalesce before c post).vma by omega)
    have inside : ∀ p ∈ pages,
        p % pageSize = 0 ∧ (coalesce before c post).vma ≤ p ∧ p ≤ H.stop := by
      intro p member
      obtain ⟨multiple, lower, upper⟩ := mem_startsBetween.mp (perm.mem_iff.mp member)
      exact ⟨multiple, lower, Nat.lt_succ_iff.mp upper⟩
    have bound := H.bound
    have nodup : (pages.map fun p => p / pageSize).Nodup :=
      (perm.map _).nodup_iff.mpr (startsBetween_pages_nodup _ _)
    have entries : ∀ p ∈ pages, (t.pages.entryOf p).isSome := by
      intro p member
      obtain ⟨-, lower, upper⟩ := inside p member
      rw [touch.pages]
      exact memory.tables p (by omega) (by omega)
    obtain ⟨news, M₂, pre, s₂, runs, kernel₂, shrinking₂, first₂, live₂, unmapped, frames, others,
      es, logEq, releases⟩ := freeEach_found pages kernelT shrinking nodup
      (by rw [perm.length_eq, shrinking.room, roomOf_reverse]; exact room) entries
    obtain ⟨rep, terminal⟩ := Represents.shrink
      (t := { s₂ with ctxt := { s₂.ctxt with heapEnd := (coalesce before c post).vma } })
      kernel₂.ctx.rep shrinking₂.chunks shrinking₂.used (fun _ _ _ => rfl) rfl
    have kernel' : KernelHeap
        { s₂ with ctxt := { s₂.ctxt with heapEnd := (coalesce before c post).vma } }
        (M₂.shrink shrinking₂.chunks shrinking₂.used) (news ++ nodes) :=
      ⟨⟨rep, kernel₂.ctx.start, rfl, shrinking₂.closed⟩, fun _ => terminal, kernel₂.list,
        fun n member => ⟨shrinking₂.nodes n member, rfl⟩⟩
    have fromS : Unmapped pages s
        { s₂ with ctxt := { s₂.ctxt with heapEnd := (coalesce before c post).vma } } := by
      refine ⟨fun v other => ?_, fun v gone => ?_, ?_⟩
      · rw [← touch.pages]
        exact unmapped.others v other
      · rw [← touch.pages]
        exact unmapped.gone v gone
      · rw [← touch.pages]
        exact unmapped.bump
    have sameFrames : pages.map (frameOf t) = pages.map (frameOf s) := by
      refine List.map_congr_left fun p _ => ?_
      unfold frameOf
      rw [touch.pages]
    rw [sameFrames] at frames releases
    refine ⟨M₂.shrink shrinking₂.chunks shrinking₂.used, news, pages, _, fun depth => ?_,
      ⟨⟨kernel', ?_, ?_, ?_⟩, first₂.trans first,
        show (coalesce before c post).vma ≤ H.stop by omega, ?_, Or.inr perm, fromS, frames,
        fun n member => ?_, ?_⟩, fun more => absurd last more⟩
    · unfold kfree
      rw [run, shrinkHeap, loop, Prog.bind_of_ok (runs depth)]
      rfl
    · exact le_trans (show (coalesce before c post).vma ≤ H.stop by omega) memory.below
    · -- the pages below the block were not released
      intro p multiple lower upper
      have other : p / pageSize ∉ pages.map fun q => q / pageSize := by
        intro same
        obtain ⟨q, member, same⟩ := List.mem_map.mp same
        obtain ⟨multipleQ, lowerQ, -⟩ := inside q member
        change p < (coalesce before c post).vma at upper
        unfold pageSize at same multiple multipleQ
        omega
      have present := memory.present p multiple (first ▸ first₂ ▸ lower)
        (lt_trans upper (show (coalesce before c post).vma < H.stop by omega))
      obtain ⟨e, there, mapped⟩ := PageTables.mapped_iff.mp present
      exact PageTables.mapped_iff.mpr ⟨e, (fromS.others p other).trans there, mapped⟩
    · intro v lower word
      have there := memory.tables v (first ▸ first₂ ▸ lower) word
      by_cases gone : v / pageSize ∈ pages.map fun q => q / pageSize
      · rw [fromS.gone v gone, Option.isSome_map]
        exact there
      · rw [fromS.others v gone]
        exact there
    · -- the block at the end is in use before and after the loop
      have live' : (liveOf pre).Perm (news.map nodeChunk ++
          liveOf (absorbPrev (absorbNext c post).1 before).2.reverse) := by
        rw [shrinking₂.chunks, liveOf_append, liveOf_cons_used shrinking₂.used] at live₂
        have moved := (List.perm_append_singleton _ _).symm.trans
          (live₂.trans ((liveM.append_left _).trans List.perm_middle))
        exact (List.perm_cons _).mp moved
      exact (live'.cons c).trans (List.perm_middle.symm.trans (liveH.append_left _))
    · refine (others n member).trans (touch.mem n fun within => ?_)
      exact within.2.2 _ (memory.heap.keeps_others block n member) (nodeChunk_holds n).1
    · obtain ⟨es₁, logEq₁, releases₁⟩ := touch.releases
      exact ⟨es ++ es₁, by rw [List.append_assoc, ← logEq₁]; exact logEq,
        List.append_nil (pages.map (frameOf s)) ▸ releases.append releases₁⟩
  · obtain ⟨M, s', run, kernel, first, stop, live, touch⟩ :=
      memory.heap.free_inside block split last
    refine ⟨M, [], [], s', fun depth => run _, ⟨⟨kernel, ?_, ?_, fun v lower word => ?_⟩, first,
      stop.le, live, Or.inl rfl,
      ⟨fun v _ => ?_, fun v inside => absurd inside List.not_mem_nil, ?_⟩, rfl,
      fun n member => ?_, touch.releases⟩, fun _ => rfl⟩
    · rw [stop]
      exact memory.below
    · rw [first, stop, touch.pages]
      exact memory.present
    · rw [touch.pages]
      exact memory.tables v (first ▸ lower) word
    · rw [touch.pages]
    · rw [touch.pages]
    · refine touch.mem n fun inside => ?_
      exact inside.2.2 _ (memory.heap.keeps_others block n member) (nodeChunk_holds n).1

/-- A call of `kfree` that left a well-formed state found room for its nodes. -/
theorem KernelMemory.nodesFit (memory : KernelMemory s H nodes) (block : CallerBlock H nodes c)
    (split : H.chunks = before.reverse ++ c :: post) {depth : ℕ} {nodes' : List ℕ}
    (returned : kfree (depth + 2) c.vma s = .ok ((), s')) (memory' : KernelMemory s' M nodes') :
    NodesFit H before c post := by
  by_cases last : (absorbNext c post).2 = []
  · obtain ⟨N, t, run, kernelT, shrinking, first, stop, -, -, touch⟩ :=
      memory.heap.free_atEnd block split last
    have rangeN := N.range (c := coalesce before c post) (by simp [shrinking.chunks])
    obtain ⟨pages, perm, loop⟩ := releaseLoop_pages H.bound
      (show 0 < (coalesce before c post).vma by omega)
    unfold kfree at returned
    rw [run, shrinkHeap, loop] at returned
    obtain ⟨u, s₂, released, returned⟩ := Prog.bind_eq_ok.mp returned
    cases returned
    obtain ⟨nodes₂, list, room, -⟩ := freeEach_room pages kernelT (show H.stop ≤ N.stop by omega)
      (stop ▸ memory.below) released
    refine Or.inr ?_
    rw [← perm.length_eq, ← roomOf_reverse, ← shrinking.room]
    refine room.resolve_right ?_
    -- a node behind the old end lies behind the new one
    rintro ⟨n, member, high⟩
    obtain rfl := PointerList.Singly.unique memory'.heap.list list
    have range := M.range (memory'.heap.live n member).1
    have ending : (coalesce before c post).vma = M.stop := memory'.heap.ctx.atEnd
    unfold nodeChunk at range
    dsimp only at range
    omega
  · exact Or.inl last

/-- **`kfree` keeps the kernel memory well formed if and only if the free list has room for the
nodes of the pages it releases.** The nodes in which `page_free` notes the frames come from
`kmalloc` while `free` releases pages, and only then does `free` lower the end of the heap.  As
long as the free list serves them the call keeps the invariant; a node that it cannot serve is put
behind the old end and is cut off. -/
theorem kfree_keeps_iff (memory : KernelMemory s H nodes) (block : CallerBlock H nodes c)
    (split : H.chunks = before.reverse ++ c :: post) (depth : ℕ) :
    (∃ s' M nodes', kfree (depth + 2) c.vma s = .ok ((), s') ∧ KernelMemory s' M nodes') ↔
      NodesFit H before c post := by
  constructor
  · rintro ⟨s', M, nodes', returned, memory'⟩
    exact memory.nodesFit block split returned memory'
  · intro fits
    obtain ⟨M, news, pages, s', run, released, -⟩ := memory.kfree_fits block split fits
    exact ⟨s', M, _, run _, released.memory⟩

end Kfree

/-! ## A page to release -/

/-- Page tables that map the first nine pages, each to the frame of its number.  The tables
lie in the frames from four MiB on, and one freed frame behind them. -/
def lowPages : PageTables where
  dir idx := (0x400000 + idx * pageSize) ||| pageWrite ||| pagePresent
  table idx := some fun i =>
    if idx = 0 ∧ i < 9 then i * pageSize ||| pageWrite ||| pagePresent else 0
  freeList := 0x5008
  heapEndPma := 0x801000
  trace := []

theorem lowPages_mapped {v : ℕ} (low : v < 9 * pageSize) : PageLayer.mapped lowPages v = true := by
  have page : v / pageSize < 9 := Nat.div_lt_of_lt_mul (by rwa [Nat.mul_comm])
  have dir : pageGetDirIdx v = 0 := by
    rw [pageGetDirIdx_eq]
    exact Nat.div_eq_of_lt (page.trans (by decide))
  have table : pageGetTableIdx v < 9 := by
    rw [pageGetTableIdx_eq, Nat.mod_eq_of_lt (page.trans (by decide))]
    exact page
  refine PageTables.mapped_iff.mpr ⟨_, rfl, ?_⟩
  dsimp only
  rw [if_pos ⟨dir, table⟩]
  exact entryPresent_or _

/-- A node, a free chunk of 24 bytes, a block, and a block of a page at the end. -/
def roomyHeap : Heap where
  first := 0x5000
  chunks := [nodeChunk 0x5008, ⟨0x5018, 24, true⟩, ⟨0x5038, 8, false⟩, ⟨0x5048, 4096, false⟩]
  order := [0x5018]
  stop := 0x6050
  aligned := by decide
  tiled := by simp [nodeChunk, pageFreeNodeSize]
  bound := by decide
  members := by decide
  coalesced := by simp [NotBothFree, nodeChunk]

/-- That heap in memory. -/
def roomyKernel : Sys PageTables where
  mem a := (List.lookup a [(0x5004, 8), (0x5008, 0x800000), (0x5010, 8), (0x5014, 25), (0x5030, 25),
    (0x5034, 8), (0x5040, 8), (0x5044, 4096), (0x6048, 4096)]).getD 0
  ctxt := ⟨0x5018, 0x5000, 0x6050⟩
  pages := lowPages
  log := []

theorem roomyKernel_memory : KernelMemory roomyKernel roomyHeap [0x5008] where
  heap :=
    { ctx :=
        { rep :=
            { base := rfl
              ownTag := by decide
              nextTag := by decide
              links := by
                unfold NodeList
                simp [roomyKernel, roomyHeap, List.lookup_cons] }
          start := by decide +kernel
          atEnd := rfl
          closed := by simp [Heap.Closed, roomyHeap] }
      terminal := fun _ => rfl
      list := by
        unfold PageNodes
        simp [roomyKernel, lowPages, List.lookup_cons]
      live := by
        intro n member
        rw [List.mem_singleton.mp member]
        exact ⟨List.mem_cons_self, rfl⟩ }
  below := by decide
  present := fun p _ _ below => lowPages_mapped (below.trans (by decide))
  tables := fun _ _ _ => rfl

/-- The block of a page is freed: one page, and room for two nodes. -/
theorem kfree_keeps_of_room :
    ∃ s' M nodes', kfree 2 0x5048 roomyKernel = .ok ((), s') ∧ KernelMemory s' M nodes' := by
  have block : CallerBlock roomyHeap [0x5008] ⟨0x5048, 4096, false⟩ :=
    ⟨⟨by simp [roomyHeap], rfl⟩, by decide⟩
  have fits : NodesFit roomyHeap [⟨0x5038, 8, false⟩, ⟨0x5018, 24, true⟩, nodeChunk 0x5008]
      ⟨0x5048, 4096, false⟩ [] := Or.inr (by decide +kernel)
  exact (kfree_keeps_iff roomyKernel_memory block rfl 0).mpr fits

/-- A node and a block of a page. -/
def fullHeap : Heap where
  first := 0x7000
  chunks := [nodeChunk 0x7008, ⟨0x7018, 4096, false⟩]
  order := []
  stop := 0x8020
  aligned := by decide
  tiled := by simp [nodeChunk, pageFreeNodeSize]
  bound := by decide
  members := by decide
  coalesced := by simp [NotBothFree, nodeChunk]

/-- That heap in memory. -/
def fullKernel : Sys PageTables where
  mem a := (List.lookup a [(0x7004, 8), (0x7008, 0x800000), (0x7010, 8), (0x7014, 4096),
    (0x8018, 4096)]).getD 0
  ctxt := ⟨0, 0x7000, 0x8020⟩
  pages := { lowPages with freeList := 0x7008 }
  log := []

theorem fullKernel_memory : KernelMemory fullKernel fullHeap [0x7008] where
  heap :=
    { ctx :=
        { rep :=
            { base := rfl
              ownTag := by decide
              nextTag := by decide
              links := rfl }
          start := by decide +kernel
          atEnd := rfl
          closed := by simp [Heap.Closed, fullHeap] }
      terminal := fun _ => rfl
      list := by
        unfold PageNodes
        simp [fullKernel, List.lookup_cons]
      live := by
        intro n member
        rw [List.mem_singleton.mp member]
        exact ⟨List.mem_cons_self, rfl⟩ }
  below := by decide
  present := by
    intro p _ _ below
    exact (PageTables.mapped_of_table rfl).trans (lowPages_mapped (below.trans (by decide)))
  tables := fun _ _ _ => rfl

/-- With an empty free list the node of the page is put behind the end. -/
theorem kfree_breaks_full_heap :
    KernelMemory fullKernel fullHeap [0x7008] ∧
      CallerBlock fullHeap [0x7008] ⟨0x7018, 4096, false⟩ ∧
      ∃ s', kfree 2 0x7018 fullKernel = .ok ((), s') ∧
        ¬ ∃ M nodes', KernelMemory s' M nodes' := by
  have block : CallerBlock fullHeap [0x7008] ⟨0x7018, 4096, false⟩ :=
    ⟨⟨by simp [fullHeap], rfl⟩, by decide⟩
  obtain ⟨_, s', returned, -⟩ := Prog.exists_of_check (s := fullKernel)
    (m := kfree 2 0x7018) (fun _ _ => true) (by decide +kernel)
  refine ⟨fullKernel_memory, block, s', returned, ?_⟩
  rintro ⟨M, nodes', memory'⟩
  have split : fullHeap.chunks = [nodeChunk 0x7008].reverse ++ ⟨0x7018, 4096, false⟩ :: [] := rfl
  have fits := fullKernel_memory.nodesFit block split returned memory'
  exact absurd fits (by unfold NodesFit; decide +kernel)

end TrashOS
