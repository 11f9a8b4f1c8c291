import TrashOS.Page.BootFrames
import TrashOS.Page.Steps

/-!
# What the holder of a block or of a frame can rely on

A page inside a block keeps its entry for as long as the block is in use, whatever else is
allocated and freed (`StepOutcome.entryOf_kept`).  A frame that `page_new` returned stays
the frame of no page and is not returned again (`StepOutcome.reserved`).  A caller that
lives on both, as `proc.c` does, still has what it was given after any run
(`holdings_of_boot`).

A caller is a `Holder`: the client of the kernel heap together with the blocks, the frames
and the entries that it was given.  `Answers` are the calls that give it something, and
`HoldStep` adds the calls of others, which may free any block but these.  `Reserved` is the
invariant of a frame: it is below the next new frame, the frame of no page, and not on the
list.  `holding_of_steps` keeps all of this through a run.
-/

namespace TrashOS

section Blocks

variable {admits : Sys PageTables → Chunk → Prop} {s s' : Sys PageTables}
  {w w' : Client PageTables} {H M : Heap} {nodes news pages rest : List ℕ} {c d : Chunk} {v : ℕ}

/-- A page that starts behind a byte is not the page of that byte. -/
theorem not_page_of_lt {starts : List ℕ} (behind : ∀ p ∈ starts, p % pageSize = 0 ∧ v < p) :
    v / pageSize ∉ starts.map fun p => p / pageSize := by
  rintro member
  obtain ⟨p, listed, same⟩ := List.mem_map.mp member
  obtain ⟨multiple, above⟩ := behind p listed
  unfold pageSize at *
  omega

theorem Released.entryOf_kept (released : Released H nodes d s M news pages s') (live : M.Live c)
    (inside : v < c.stop) : s'.pages.entryOf v = s.pages.entryOf v := by
  have range := M.range live.1
  unfold Chunk.stop at inside
  refine released.unmapped.others v (not_page_of_lt fun p member => ?_)
  rcases released.range with rfl | perm
  · cases member
  · obtain ⟨multiple, lower, -⟩ := mem_startsBetween.mp (perm.mem_iff.mp member)
    exact ⟨multiple, by omega⟩

/-- **A call leaves the pages of the blocks in use where they are.** -/
theorem StepOutcome.entryOf_kept (outcome : StepOutcome admits w H nodes w' M rest)
    (client' : KernelClient w' M rest) (client : KernelClient w H nodes) (live : c ∈ w.live)
    (live' : c ∈ w'.live) (inside : v < c.stop) :
    w'.sys.pages.entryOf v = w.sys.pages.entryOf v := by
  have inUse : H.Live c := mem_liveOf.mp (client.live.mem_iff.mpr (List.mem_append_left _ live))
  have inUse' : M.Live c := mem_liveOf.mp (client'.live.mem_iff.mpr (List.mem_append_left _ live'))
  cases outcome with
  | found accessed found => rw [accessed.pages]
  | grown accessed _ grown loop =>
      have range := H.range inUse.1
      have fresh := grown.heaps.fresh
      unfold Chunk.stop at inside
      rw [← accessed.pages]
      refine grown.others v (not_page_of_lt fun p member => ?_)
      obtain ⟨multiple, lower, -⟩ := mem_startsBetween.mp member
      exact ⟨multiple, by omega⟩
  | released accessed _ member admitted released atEnd =>
      rw [← accessed.pages]
      exact released.entryOf_kept inUse' inside
  | bumped empty accessed =>
      rw [← accessed.pages]
      rfl
  | popped head accessed _ admitted released atEnd =>
      rw [← accessed.pages]
      exact released.entryOf_kept inUse' inside

end Blocks

/-! ## Frames -/

/-- A frame that is in the hands of a caller and the frame of no page. -/
structure Reserved (u : ℕ) (s : Sys PageTables) (nodes : List ℕ) : Prop where
  below : u < s.pages.heapEndPma
  notSpare : u ∉ nodes.map s.mem
  unheld : ∀ page, heldFrame s.pages page ≠ some u

section Frames

variable {s s' : Sys PageTables} {w w' : Client PageTables} {P H M : Heap}
  {nodes news pages rest : List ℕ} {c : Chunk} {page pma u : ℕ}

theorem Reserved.accessed (reserved : Reserved u s nodes) (accessed : Accessed nodes s s') :
    Reserved u s' nodes := by
  refine ⟨accessed.pages ▸ reserved.below, ?_, accessed.pages ▸ reserved.unheld⟩
  rw [List.map_congr_left accessed.mem]
  exact reserved.notSpare

/-- `kernel_heap_end_pma` moves up unless it wraps around. -/
theorem IsFrame.lt_next (frame : IsFrame pma) (nonzero : Word32.add pma pageSize ≠ 0) :
    pma < Word32.add pma pageSize := by
  have word := frame.word
  have aligned := frame.aligned
  unfold Word32.add pageSize at *
  omega

/-- `page_new` returns another frame. -/
theorem NewPage.ne_reserved (new : NewPage s P nodes pma s' rest) (reserved : Reserved u s nodes) :
    pma ≠ u := by
  rintro rfl
  rcases new.source with ⟨-, -, rfl, -⟩ | ⟨-, n, rfl, rfl⟩
  · exact absurd reserved.below (Nat.lt_irrefl _)
  · exact reserved.notSpare (List.mem_map_of_mem List.mem_cons_self)

/-- One turn of the page loop. -/
theorem NewPage.reserved (new : NewPage s P nodes pma s' rest) (reserved : Reserved u s nodes)
    (next : s.pages.heapEndPma ≤ s'.pages.heapEndPma) (frame : IsFrame pma)
    (table : s'.pages.table = s.pages.table) (there : (s'.pages.entryOf page).isSome) :
    Reserved u (s'.mappedTo page pma) rest := by
  refine ⟨reserved.below.trans_le next, fun member => ?_, fun k held => ?_⟩
  · obtain ⟨n, listed, rfl⟩ := List.mem_map.mp member
    obtain ⟨old, same⟩ := new.listed n listed
    exact reserved.notSpare (List.mem_map.mpr ⟨n, old, same.symm⟩)
  · have written : heldFrame (s'.mappedTo page pma).pages =
        Function.update (heldFrame s'.pages) (page / pageSize) (some pma) := by
      refine (heldFrame_write there (entryPresent_or pma)).trans ?_
      rw [frame.entry.1]
    rw [written, heldFrame_of_table table, Function.update_apply] at held
    split_ifs at held with here
    · exact new.ne_reserved reserved (Option.some_inj.mp held)
    · exact reserved.unheld k held

/-- The page loop keeps a reserved frame, while no frame is owned twice. -/
theorem reservedLoop_keeps (u : ℕ) : LoopKeeps fun _ s nodes => NextKept s.log →
    Owned (fun _ => False) s nodes ∧ Reserved u s nodes where
  accessed todo s s' nodes holds accessed kept := by
    obtain ⟨es, logEq, -⟩ := accessed.log
    obtain ⟨owned, reserved⟩ := holds (NextKept.before es (logEq ▸ kept))
    exact ⟨owned.accessed accessed fun _ => id, reserved.accessed accessed⟩
  turn {page todo s P nodes pma s' rest} holds new table there kept := by
    obtain ⟨es, logEq, -⟩ := new.log
    have keptS : NextKept (.pageNew pma s'.pages :: (es ++ s.log)) := fun u pages member =>
      kept u pages (List.mem_cons_of_mem _ (logEq ▸ member))
    obtain ⟨owned, reserved⟩ := holds (NextKept.before (.pageNew pma s'.pages :: es) keptS)
    have nonzero := keptS pma s'.pages List.mem_cons_self
    obtain ⟨owned', frame, below, notSpare, unheld⟩ := new.owned table owned nonzero
    refine ⟨(owned'.map there frame below notSpare unheld).mono fun _ none => Or.inr none,
      new.reserved reserved ?_ frame table there⟩
    rcases new.source with ⟨-, -, -, next⟩ | ⟨next, -⟩
    · rw [next] at nonzero ⊢
      exact (owned.next.lt_next nonzero).le
    · rw [next]

/-- The pages `kfree` releases hold the frames it notes. -/
theorem Released.held (released : Released H nodes c s M news pages s')
    (memory : KernelMemory s H nodes) (inside : pages ≠ [] → H.stop % pageSize ≠ 0) {p : ℕ}
    (member : p ∈ pages) : heldFrame s.pages (p / pageSize) = some (frameOf s p) := by
  have nonempty : pages ≠ [] := List.ne_nil_of_mem member
  obtain ⟨multiple, lower, upper⟩ := mem_startsBetween.mp
    ((released.range.resolve_left nonempty).mem_iff.mp member)
  have low := M.first_le_stop
  have first := released.first
  have before : p < H.stop := by
    refine Nat.lt_of_le_of_ne (Nat.lt_succ_iff.mp upper) ?_
    rintro rfl
    exact inside nonempty multiple
  exact held_of_mapped (memory.present p multiple ((pageStart_le _).trans (by omega)) before)

/-- **`kfree`** gives back frames of pages only. -/
theorem Released.reserved (released : Released H nodes c s M news pages s')
    (memory : KernelMemory s H nodes) (inside : pages ≠ [] → H.stop % pageSize ≠ 0)
    (reserved : Reserved u s nodes) : Reserved u s' (news ++ nodes) := by
  refine ⟨released.unmapped.bump ▸ reserved.below, fun member => ?_, fun page held => ?_⟩
  · rw [List.map_append, released.frames] at member
    rcases List.mem_append.mp member with new | old
    · obtain ⟨p, listed, rfl⟩ := List.mem_map.mp (List.mem_reverse.mp new)
      exact reserved.unheld _ (released.held memory inside listed)
    · rw [List.map_congr_left released.others] at old
      exact reserved.notSpare old
  · rw [released.unmapped.held] at held
    dsimp only at held
    split at held
    · cases held
    · exact reserved.unheld page held

/-- A node is popped from the page list. -/
theorem Reserved.pop {n : ℕ} (reserved : Reserved u s (n :: rest)) :
    Reserved u (s.popped n) rest :=
  ⟨reserved.below, fun member => reserved.notSpare (List.mem_cons_of_mem _ member),
    reserved.unheld⟩

end Frames

/-! ## Steps and runs -/

section Steps

variable {s s' : Sys PageTables} {w w' : Client PageTables} {H M : Heap}
  {nodes news pages rest : List ℕ} {c : Chunk} {pma u : ℕ}

theorem NextKept.of_suffix {log log' : List (Event PageTables)} (kept : NextKept log')
    (earlier : log <:+ log') : NextKept log :=
  fun pma pages member => kept pma pages (earlier.subset member)

/-- A safe `kfree` that releases pages leaves from an end inside a page. -/
theorem SafeFree.inside (safe : SafeFree s c) (memory : KernelMemory s H nodes)
    (atEnd : AtEndOnly H c pages) : pages ≠ [] → H.stop % pageSize ≠ 0 := by
  obtain ⟨before, post, split, none⟩ := atEnd
  intro some
  refine (safe H nodes before post memory split).2 ?_
  by_contra more
  exact some (none more)

/-- **A call keeps a reserved frame.** -/
theorem StepOutcome.reserved (outcome : StepOutcome SafeFree w H nodes w' M rest)
    (inv : OwnedClient w H nodes) (reserved : Reserved u w.sys nodes)
    (kept : NextKept w'.sys.log) : Reserved u w'.sys rest := by
  have owned := inv.owned (kept.of_suffix outcome.suffix)
  cases outcome with
  | found accessed found => exact reserved.accessed accessed
  | grown accessed client grown loop =>
      refine (loop _ (reservedLoop_keeps u) (fun _ => ?_) kept).2
      exact ⟨owned.accessed accessed fun _ none => none.elim, reserved.accessed accessed⟩
  | released accessed client member admitted released atEnd =>
      exact released.reserved client.memory (admitted.inside client.memory atEnd)
        (reserved.accessed accessed)
  | bumped empty accessed =>
      subst empty
      have reserved₁ := reserved.accessed accessed
      have next := (owned.accessed accessed fun _ => id).next
      have up := next.lt_next (kept _ _ List.mem_cons_self)
      exact ⟨reserved₁.below.trans up, reserved₁.notSpare, reserved₁.unheld⟩
  | popped head accessed client admitted released atEnd =>
      subst head
      have final := released.reserved client.memory (admitted.inside client.memory atEnd)
        (reserved.accessed accessed).pop
      exact ⟨final.below, final.notSpare, final.unheld⟩

/-- **The frame `page_new` returns** was not reserved before and is reserved afterwards. -/
theorem StepOutcome.pageNew (outcome : StepOutcome SafeFree w H nodes w' M rest)
    (inv : OwnedClient w H nodes) (live : w'.live = w.live)
    {pt : PageTables} {log : List (Event PageTables)}
    (returned : w'.sys.log = .pageNew pma pt :: log) (kept : NextKept w'.sys.log) :
    ¬ Reserved pma w.sys nodes ∧ Reserved pma w'.sys rest := by
  have owned := inv.owned (kept.of_suffix outcome.suffix)
  cases outcome with
  | found accessed found => exact absurd live (List.cons_ne_self _ _)
  | grown accessed client grown loop => exact absurd live (List.cons_ne_self _ _)
  | released accessed client member admitted released atEnd =>
      have shorter := List.length_erase_of_mem member
      have some := List.length_pos_of_mem member
      rw [show w.live.erase _ = w.live from live] at shorter
      omega
  | @bumped s₁ empty accessed =>
      subst empty
      obtain ⟨-, -, below, notSpare, unheld⟩ := (newPage_bumped s₁ H).owned rfl
        (owned.accessed accessed fun _ => id) (kept _ _ List.mem_cons_self)
      cases returned
      refine ⟨fun reserved => ?_, below, notSpare, unheld⟩
      exact (newPage_bumped s₁ H).ne_reserved (reserved.accessed accessed) rfl
  | @popped s₁ s' M n rest news pages head accessed client admitted released atEnd =>
      subst head
      obtain ⟨-, fresh⟩ := (owned.accessed accessed fun _ => id).pop
      have final := released.reserved client.memory (admitted.inside client.memory atEnd)
        (⟨fresh.below, fresh.notSpare, fresh.unheld⟩ : Reserved (s₁.mem n) (s₁.popped n) rest)
      cases returned
      refine ⟨fun reserved => ?_, final.below, final.notSpare, final.unheld⟩
      exact (reserved.accessed accessed).notSpare (List.mem_map_of_mem List.mem_cons_self)

/-- The bounds of the heap and the page list are those of the state. -/
theorem OwnedClient.congr {M' : Heap} {rest' : List ℕ} (inv : OwnedClient w H nodes)
    (client : KernelClient w M' rest') : OwnedClient w M' rest' := by
  have ctx := inv.client.memory.heap.ctx
  have ctx' := client.memory.heap.ctx
  have first : M'.first = H.first := ctx'.start.trans ctx.start.symm
  have stop : M'.stop = H.stop := ctx'.atEnd.symm.trans ctx.atEnd
  obtain rfl : rest' = nodes := client.memory.heap.list.unique inv.client.memory.heap.list
  refine ⟨client, fun kept => (inv.owned kept).mono fun page heap => ?_⟩
  unfold HeapPage at heap ⊢
  rw [← first, ← stop]
  exact heap

end Steps

/-! ## What a caller was given -/

/-- A caller of the allocators and what it was given so far: blocks, frames, and the
frames of pages as `page_get_pma` told them. -/
structure Holder where
  client : Client PageTables
  blocks : List Chunk
  frames : List ℕ
  pages : List (ℕ × ℕ)

/-- A request, with its answer. -/
inductive Request
  /-- `kmalloc_aligned(bytes, alignment)` returned `v`. -/
  | block (alignment bytes v : ℕ)
  /-- `page_new()` returned `pma`. -/
  | frame (pma : ℕ)
  /-- `page_get_pma(vma)` returned `pma`. -/
  | pmaOf (vma pma : ℕ)

namespace Request

/-- The blocks an answer gives. -/
def blocks : Request → List Chunk
  | block _ bytes v => [⟨v, roundBytes bytes, false⟩]
  | _ => []

/-- The frames an answer gives. -/
def frames : Request → List ℕ
  | frame pma => [pma]
  | _ => []

/-- The pages whose frame an answer tells. -/
def pages : Request → List (ℕ × ℕ)
  | pmaOf vma pma => [(vma, pma)]
  | _ => []

end Request

/-- The allocators answer the caller. -/
inductive Answers : Request → Holder → Holder → Prop
  | block {s s₁ s₂ : Sys PageTables} {live blocks : List Chunk} {frames : List ℕ}
      {pages : List (ℕ × ℕ)} {alignment bytes v depth : ℕ}
      (writes : ClientWrites live s s₁) (same : s₁.pages = s.pages)
      (aligned : PageAlignment alignment) (suffices_ : SpaceSuffices s₁ alignment bytes)
      (returned : kmallocAligned (depth + 1) bytes alignment s₁ = .ok (v, s₂)) :
      Answers (.block alignment bytes v) ⟨⟨s, live⟩, blocks, frames, pages⟩
        ⟨⟨s₂, ⟨v, roundBytes bytes, false⟩ :: live⟩, ⟨v, roundBytes bytes, false⟩ :: blocks,
          frames, pages⟩
  | frame {s s₁ s₂ : Sys PageTables} {live blocks : List Chunk} {frames : List ℕ}
      {pages : List (ℕ × ℕ)} {pma depth : ℕ}
      (writes : ClientWrites live s s₁) (same : s₁.pages = s.pages)
      (admitted : s₁.pages.freeList ≠ 0 →
        SafeFree (s₁.popped s₁.pages.freeList) (nodeChunk s₁.pages.freeList))
      (returned : pageNew (depth + 2) s₁ = .ok (pma, s₂)) :
      Answers (.frame pma) ⟨⟨s, live⟩, blocks, frames, pages⟩
        ⟨⟨s₂, live⟩, blocks, pma :: frames, pages⟩
  | pmaOf {s s₁ : Sys PageTables} {live blocks : List Chunk} {frames : List ℕ}
      {pages : List (ℕ × ℕ)} {c : Chunk} {vma pma : ℕ}
      (writes : ClientWrites live s s₁) (same : s₁.pages = s.pages) (own : c ∈ blocks)
      (start : c.vma = vma) (read : pageGetPma vma s₁.pages = .ok (pma, s₁.pages)) :
      Answers (.pmaOf vma pma) ⟨⟨s, live⟩, blocks, frames, pages⟩
        ⟨⟨s₁, live⟩, blocks, frames, (vma, pma) :: pages⟩

/-- The allocators answer one request after the other. -/
inductive Requests : Holder → List Request → Holder → Prop
  | nil (k : Holder) : Requests k [] k
  | cons {k k₁ k' : Holder} {r : Request} {rs : List Request} (answers : Answers r k k₁)
      (rest : Requests k₁ rs k') : Requests k (r :: rs) k'

/-- The allocators answer the caller, or serve somebody else, who does not free the
blocks of the caller. -/
inductive HoldStep : Holder → Holder → Prop
  | answer {r : Request} {k k' : Holder} (answers : Answers r k k') : HoldStep k k'
  | other {k : Holder} {w' : Client PageTables} (step : KernelStep SafeFree k.client w')
      (kept : ∀ c ∈ k.blocks, c ∈ w'.live) : HoldStep k { k with client := w' }

/-- **The caller still has what it was given.** -/
structure Holding (k : Holder) (H : Heap) (nodes : List ℕ) : Prop where
  owned : OwnedClient k.client H nodes
  live : ∀ c ∈ k.blocks, c ∈ k.client.live
  distinct : k.blocks.Nodup
  backed : ∀ x ∈ k.pages, ∃ c ∈ k.blocks, c.vma = x.1
  held : ∀ x ∈ k.pages, heldFrame k.client.sys.pages (x.1 / pageSize) = some x.2
  frames : NextKept k.client.sys.log →
    k.frames.Nodup ∧ ∀ u ∈ k.frames, Reserved u k.client.sys nodes

section Holders

variable {k k' : Holder} {H : Heap} {nodes : List ℕ} {r : Request} {rs rs' : List Request}

theorem Answers.given (answers : Answers r k k') :
    k'.blocks = r.blocks ++ k.blocks ∧ k'.frames = r.frames ++ k.frames ∧
      k'.pages = r.pages ++ k.pages := by
  cases answers <;> exact ⟨rfl, rfl, rfl⟩

/-- What the answers give, the last one first. -/
theorem Requests.given (requests : Requests k rs k') :
    k'.blocks = rs.reverse.flatMap Request.blocks ++ k.blocks ∧
      k'.frames = rs.reverse.flatMap Request.frames ++ k.frames ∧
      k'.pages = rs.reverse.flatMap Request.pages ++ k.pages := by
  induction requests with
  | nil k => exact ⟨rfl, rfl, rfl⟩
  | cons answers rest ih =>
      obtain ⟨blocks, frames, pages⟩ := answers.given
      rw [ih.1, ih.2.1, ih.2.2, blocks, frames, pages]
      simp [List.flatMap_append]

theorem Requests.append (requests : Requests k (rs ++ rs') k') :
    ∃ k₁, Requests k rs k₁ ∧ Requests k₁ rs' k' := by
  induction rs generalizing k with
  | nil => exact ⟨k, .nil k, requests⟩
  | cons r rs ih =>
      cases requests with
      | cons answers rest =>
          obtain ⟨k₁, first, second⟩ := ih rest
          exact ⟨k₁, .cons answers first, second⟩

theorem Requests.trans {k₁ : Holder} (first : Requests k rs k₁) (second : Requests k₁ rs' k') :
    Requests k (rs ++ rs') k' := by
  induction first with
  | nil k => exact second
  | cons answers _ ih => exact .cons answers (ih second)

theorem Requests.steps (requests : Requests k rs k') : Relation.ReflTransGen HoldStep k k' := by
  induction requests with
  | nil k => exact .refl
  | cons answers _ ih => exact .head (.answer answers) ih

theorem Holding.chunk (holding : Holding k H nodes) {c : Chunk} (member : c ∈ k.blocks) :
    H.Live c :=
  mem_liveOf.mp (holding.owned.client.live.mem_iff.mpr
    (List.mem_append_left _ (holding.live c member)))

/-- Two blocks start at different addresses, and none at `NULL`. -/
theorem Holding.vmas (holding : Holding k H nodes) : (0 :: k.blocks.map Chunk.vma).Nodup := by
  refine List.nodup_cons.mpr ⟨fun null => ?_, ?_⟩
  · obtain ⟨c, member, start⟩ := List.mem_map.mp null
    have range := H.range (holding.chunk member).1
    omega
  · refine holding.distinct.map_on fun c memC d memD same => ?_
    have chunkC := (holding.chunk memC).1
    have chunkD := (holding.chunk memD).1
    have rangeC := H.range chunkC
    have rangeD := H.range chunkD
    refine Heap.holds_unique (a := c.vma) chunkC chunkD ?_ ?_ <;>
      (unfold Chunk.Holds Chunk.stop; omega)

/-- Other calls. -/
theorem Holding.other (holding : Holding k H nodes) {w' : Client PageTables}
    (step : KernelStep SafeFree k.client w') (kept : ∀ c ∈ k.blocks, c ∈ w'.live) :
    ∃ M rest, Holding { k with client := w' } M rest := by
  obtain ⟨M, rest, outcome, client'⟩ := step.outcome SafeFree.room holding.owned.client
  obtain ⟨M', rest', owned'⟩ := step.owned holding.owned
  have inv' := owned'.congr client'
  refine ⟨M, rest, inv', kept, holding.distinct, holding.backed, fun x listed => ?_,
    fun keptLog => ?_⟩
  · obtain ⟨c, member, start⟩ := holding.backed x listed
    have range := H.range (holding.chunk member).1
    have inside : x.1 / pageSize * pageSize < c.stop := by
      have := Nat.div_mul_le_self x.1 pageSize
      unfold Chunk.stop
      omega
    have same := outcome.entryOf_kept client' holding.owned.client (holding.live c member)
      (kept c member) inside
    rw [← holding.held x listed]
    unfold heldFrame
    rw [same]
  · obtain ⟨distinct, reserved⟩ := holding.frames (keptLog.of_suffix outcome.suffix)
    exact ⟨distinct, fun u listed => outcome.reserved holding.owned (reserved u listed) keptLog⟩

/-- A new block. -/
theorem Holding.block (holding : Holding k H nodes) {w' : Client PageTables} {c : Chunk}
    (step : KernelStep SafeFree k.client w') (live : w'.live = c :: k.client.live) :
    ∃ M rest, Holding { k with client := w', blocks := c :: k.blocks } M rest := by
  obtain ⟨M, rest, after⟩ := holding.other step fun d member => by
    rw [live]
    exact List.mem_cons_of_mem _ (holding.live d member)
  have nodup : (w'.live ++ rest.map nodeChunk).Nodup :=
    after.owned.client.live.nodup_iff.mp (M.nodup_chunks.filter _)
  rw [live, List.cons_append] at nodup
  refine ⟨M, rest, after.owned, fun d member => ?_, List.nodup_cons.mpr ⟨fun member => ?_,
    holding.distinct⟩, fun x listed => ?_, after.held, after.frames⟩
  · rcases List.mem_cons.mp member with rfl | old
    · exact live ▸ List.mem_cons_self
    · exact after.live d old
  · exact (List.nodup_cons.mp nodup).1 (List.mem_append_left _ (holding.live c member))
  · obtain ⟨d, member, start⟩ := holding.backed x listed
    exact ⟨d, List.mem_cons_of_mem _ member, start⟩

/-- A block starts at a multiple of its alignment. -/
theorem Holding.aligned (holding : Holding k H nodes) {alignment bytes v : ℕ}
    (answers : Answers (.block alignment bytes v) k k') : v % alignment = 0 := by
  cases answers with
  | block writes same aligned suffices_ returned =>
      obtain ⟨client, -⟩ := holding.owned.client.writes writes same
      have notEight := not_eight_of_returned client.memory aligned suffices_ returned
      rcases client.memory.alloc_cases aligned suffices_ notEight with
        ⟨rfl, v', t, M, runs, memory, found, -⟩ | extends_
      · cases (runs _).symm.trans returned
        exact (M.range (mem_liveOf.mp (found.live.mem_iff.mpr List.mem_cons_self)).1).2.2.2.2
      · obtain ⟨s', M, popped, rest, runs, -⟩ :=
          extends_ (fun _ _ _ => True) ⟨fun _ _ _ _ _ _ => trivial, fun _ _ _ _ => trivial⟩ trivial
        cases (runs _).symm.trans returned
        exact Nat.mul_mod_left _ _

/-- `page_new` notes in the log what it returns. -/
theorem pageNew_log {s s' : Sys PageTables} {depth pma : ℕ}
    (returned : pageNew (depth + 1) s = .ok (pma, s')) :
    ∃ log, s'.log = .pageNew pma s'.pages :: log := by
  have noted : ∀ {u x : ℕ} {t : Sys PageTables},
      (do recordPageNew u; pure u : KM PageTables ℕ) t = .ok (x, s') →
        ∃ log, s'.log = .pageNew x s'.pages :: log := by
    intro u x t returned
    cases returned
    exact ⟨t.log, rfl⟩
  change pageNewWith _ s = .ok (pma, s') at returned
  unfold pageNewWith at returned
  obtain ⟨node, t, -, returned⟩ := Prog.bind_eq_ok.mp returned
  split at returned
  · obtain ⟨u, t₁, -, returned⟩ := Prog.bind_eq_ok.mp returned
    obtain ⟨next, t₂, -, returned⟩ := Prog.bind_eq_ok.mp returned
    obtain ⟨-, t₃, -, returned⟩ := Prog.bind_eq_ok.mp returned
    obtain ⟨-, t₄, -, returned⟩ := Prog.bind_eq_ok.mp returned
    exact noted returned
  · obtain ⟨u, t₁, -, returned⟩ := Prog.bind_eq_ok.mp returned
    obtain ⟨-, t₂, -, returned⟩ := Prog.bind_eq_ok.mp returned
    exact noted returned

/-- A new frame. -/
theorem Holding.frame (holding : Holding k H nodes) {w' : Client PageTables} {pma : ℕ}
    {log : List (Event PageTables)} (step : KernelStep SafeFree k.client w')
    (live : w'.live = k.client.live)
    (returned : w'.sys.log = .pageNew pma w'.sys.pages :: log) :
    ∃ M rest, Holding { k with client := w', frames := pma :: k.frames } M rest := by
  obtain ⟨M, rest, outcome, client'⟩ := step.outcome SafeFree.room holding.owned.client
  obtain ⟨M', rest', after⟩ := holding.other step fun d member => live ▸ holding.live d member
  refine ⟨M', rest', after.owned, after.live, after.distinct, after.backed, after.held,
    fun kept => ?_⟩
  obtain ⟨distinct, reserved⟩ := after.frames kept
  obtain ⟨new, fresh⟩ := outcome.pageNew holding.owned live returned kept
  obtain rfl : rest = rest' :=
    client'.memory.heap.list.unique after.owned.client.memory.heap.list
  refine ⟨List.nodup_cons.mpr ⟨fun member => new ?_, distinct⟩, fun u listed => ?_⟩
  · exact (holding.frames (kept.of_suffix outcome.suffix)).2 pma member
  · rcases List.mem_cons.mp listed with rfl | old
    · exact fresh
    · exact reserved u old

/-- `page_get_pma` of the start of a block. -/
theorem Holding.pmaOf {s s₁ : Sys PageTables} {live blocks : List Chunk} {frames : List ℕ}
    {pages : List (ℕ × ℕ)} {c : Chunk} {pma : ℕ}
    (holding : Holding ⟨⟨s, live⟩, blocks, frames, pages⟩ H nodes)
    (writes : ClientWrites live s s₁) (same : s₁.pages = s.pages) (own : c ∈ blocks)
    (read : pageGetPma c.vma s₁.pages = .ok (pma, s₁.pages)) :
    Holding ⟨⟨s₁, live⟩, blocks, frames, (c.vma, pma) :: pages⟩ H nodes := by
  obtain ⟨client₁, accessed⟩ := holding.owned.client.writes writes same
  have kept : NextKept s₁.log → NextKept s.log := fun kept => kept.of_suffix accessed.suffix
  refine ⟨⟨client₁, fun keptLog => (holding.owned.owned (kept keptLog)).accessed accessed
    fun _ => id⟩, holding.live, holding.distinct, fun x listed => ?_, fun x listed => ?_,
    fun keptLog => ?_⟩
  · rcases List.mem_cons.mp listed with rfl | old
    · exact ⟨c, own, rfl⟩
    · exact holding.backed x old
  · rcases List.mem_cons.mp listed with rfl | old
    · obtain ⟨e, there, rfl, -⟩ := pageGetPma_eq_ok.mp read
      have range := H.range (holding.chunk own).1
      have present := client₁.memory.present (pageStart c.vma) (pageStart_mod _)
        (Nat.mul_le_mul_right _ (Nat.div_le_div_right (by omega)))
        ((pageStart_le _).trans_lt (by omega))
      rw [PageTables.mapped_congr (pageStart_div c.vma)] at present
      obtain ⟨e', there', presentEntry⟩ := PageTables.mapped_iff.mp present
      cases there.symm.trans there'
      exact heldFrame_eq_some.mpr ⟨e, there, presentEntry, rfl⟩
    · show heldFrame s₁.pages _ = _
      rw [same]
      exact holding.held x old
  · obtain ⟨distinct, reserved⟩ := holding.frames (kept keptLog)
    exact ⟨distinct, fun u member => (reserved u member).accessed accessed⟩

/-- **One step.** -/
theorem HoldStep.holding (holding : Holding k H nodes) (step : HoldStep k k') :
    ∃ M rest, Holding k' M rest := by
  cases step with
  | other step kept => exact holding.other step kept
  | answer answers =>
      cases answers with
      | block writes same aligned suffices_ returned =>
          exact holding.block (.alloc writes same aligned suffices_ returned) rfl
      | frame writes same admitted returned =>
          obtain ⟨log, logEq⟩ := pageNew_log returned
          exact holding.frame (.page writes same admitted returned) rfl logEq
      | pmaOf writes same own start read =>
          subst start
          exact ⟨H, nodes, holding.pmaOf writes same own read⟩

/-- **Every run.** -/
theorem holding_of_steps (holding : Holding k H nodes)
    (run : Relation.ReflTransGen HoldStep k k') : ∃ M rest, Holding k' M rest := by
  induction run with
  | refl => exact ⟨H, nodes, holding⟩
  | tail _ step ih =>
      obtain ⟨M, rest, holding₁⟩ := ih
      exact step.holding holding₁

/-- **What a caller was given is its own**: its blocks are in use and share no byte, its
frames are all different and the frame of no page, and a page whose frame it asked for
still has that frame; a page that starts a block is the only one with it. -/
structure Holdings (k : Holder) (nodes : List ℕ) : Prop where
  live : ∀ c ∈ k.blocks, c ∈ k.client.live
  disjoint : k.blocks.Pairwise fun c d => ∀ a, c.Holds a → ¬ d.Holds a
  held : ∀ x ∈ k.pages, heldFrame k.client.sys.pages (x.1 / pageSize) = some x.2
  alone : ∀ x ∈ k.pages, x.1 % pageSize = 0 → ∀ page,
    heldFrame k.client.sys.pages page = some x.2 → page = x.1 / pageSize
  notSpare : ∀ x ∈ k.pages, x.2 ∉ nodes.map k.client.sys.mem
  distinct : k.frames.Nodup
  reserved : ∀ u ∈ k.frames, Reserved u k.client.sys nodes

theorem Holding.holdings (holding : Holding k H nodes) (kept : NextKept k.client.sys.log) :
    Holdings k nodes := by
  have sound := (holding.owned.owned kept).ledger
  obtain ⟨distinct, reserved⟩ := holding.frames kept
  refine ⟨holding.live, ?_, holding.held, fun x listed multiple page here => ?_,
    fun x listed spare => ?_, distinct, reserved⟩
  · refine holding.distinct.pairwise_of_forall_ne fun c memC d memD differ a inC inD => ?_
    exact differ (Heap.holds_unique (holding.chunk memC).1 (holding.chunk memD).1 inC inD)
  · refine sound.alone _ page x.2 ?_ (holding.held x listed) here
    obtain ⟨c, member, start⟩ := holding.backed x listed
    have range := H.range (holding.chunk member).1
    have exact_ : x.1 / pageSize * pageSize = x.1 :=
      Nat.div_mul_cancel (Nat.dvd_of_mod_eq_zero multiple)
    unfold HeapPage
    omega
  · exact sound.unheld x.2 spare _ (holding.held x listed)

end Holders

/-! ## From boot -/

section Boot

variable {region : InitRegion} {contents : ℕ → ℕ → ℕ} {s₀ : Sys PageTables}

/-- A caller that has nothing yet. -/
theorem OwnedClient.holding {w : Client PageTables} {H : Heap} {nodes : List ℕ}
    (owned : OwnedClient w H nodes) : Holding ⟨w, [], [], []⟩ H nodes where
  owned := owned
  live _ none := absurd none List.not_mem_nil
  distinct := List.nodup_nil
  backed _ none := absurd none List.not_mem_nil
  held _ none := absurd none List.not_mem_nil
  frames _ := ⟨List.nodup_nil, fun _ none => absurd none List.not_mem_nil⟩

/-- **What a caller was given stays its own.** In every run after `page_init_cleanup` in which a
caller of the allocators asks for blocks, for frames and for the frames of its pages, and others
allocate and free what is theirs, it still has all it was given.  What others do is restricted by
`SafeFree`, and by leaving the caller's blocks in use.  The frames are the part that takes an
argument: a frame can be handed out by `page_new`, or be the frame of a page, and both sources
draw on one list. -/
theorem holdings_of_boot (boot : BootTables region s₀) (fits : region.Fits)
    (frames : BootFrames region contents s₀) :
    ∃ s' made, (∀ depth, pageInitCleanup (depth + 2) contents region s₀ = .ok ((), s')) ∧
      (∃ H nodes, KernelClient ⟨s', made⟩ H nodes) ∧
      ∀ k, Relation.ReflTransGen HoldStep ⟨⟨s', made⟩, [], [], []⟩ k →
        NextKept k.client.sys.log → ∃ nodes, PageNodes k.client.sys nodes ∧ Holdings k nodes := by
  obtain ⟨s', made, H, nodes, runs, -, owned⟩ := ownedClient_of_boot boot fits frames
  refine ⟨s', made, runs, ⟨H, nodes, owned.client⟩, fun k run kept => ?_⟩
  obtain ⟨M, rest, holding⟩ := holding_of_steps owned.holding run
  exact ⟨rest, holding.owned.client.memory.heap.list, holding.holdings kept⟩

/-- The theorem at a small kernel. -/
theorem holdings_of_small_boot :
    ∃ t, initMapKernel smallLink (2 ^ 21) freshInit = .ok ((), t) ∧
      smallBoot.pages = handedTables smallLink t ∧
      ∃ s' made, (∀ depth, pageInitCleanup (depth + 2) (fun _ _ => 0) (initRegion smallLink t)
          smallBoot = .ok ((), s')) ∧ (∃ H nodes, KernelClient ⟨s', made⟩ H nodes) ∧
        ∀ k, Relation.ReflTransGen HoldStep ⟨⟨s', made⟩, [], [], []⟩ k →
          NextKept k.client.sys.log →
            ∃ nodes, PageNodes k.client.sys nodes ∧ Holdings k nodes := by
  obtain ⟨t, run, region, pages, ready⟩ := smallBoot_ready
  obtain ⟨boot, frames⟩ := ready smallBoot rfl rfl
  refine ⟨t, run, pages, ?_⟩
  rw [region]
  exact holdings_of_boot boot smallRegion_fits frames

end Boot

end TrashOS
