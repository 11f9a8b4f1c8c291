import TrashOS.Page.Grow

/-!
# Runs of the kernel heap

`kmalloc`, `kmalloc_aligned`, `kfree` and `page_new`, in any order, each preceded by
writes of the callers to their own blocks.  `KernelClient` is the invariant: the
kernel memory is well formed, and its blocks in use are those of the callers and
the nodes of the page list.

The requests of a run fit below the top page and are aligned to a page at most; what
is asked of the blocks that are freed is a parameter of `KernelStep`, and
`NodesRoom` is what the invariant needs.

`kmallocAligned_of_run` says what `kmalloc_aligned` does after any such run.
-/

namespace TrashOS

/-- The state in which `page_new` frees the node it popped. -/
def Sys.popped (s : Sys PageTables) (n : ℕ) : Sys PageTables :=
  { ((s.loaded n).loaded (n + 4)) with pages := { s.pages with freeList := s.mem (n + 4) } }

/-- One call on the kernel heap.  `admits` says which blocks may be freed when. -/
inductive KernelStep (admits : Sys PageTables → Chunk → Prop) :
    Client PageTables → Client PageTables → Prop
  | alloc {s s₁ s₂ : Sys PageTables} {live : List Chunk} {alignment bytes v depth : ℕ}
      (writes : ClientWrites live s s₁) (pages : s₁.pages = s.pages)
      (aligned : PageAlignment alignment) (suffices_ : SpaceSuffices s₁ alignment bytes)
      (returned : kmallocAligned (depth + 1) bytes alignment s₁ = .ok (v, s₂)) :
      KernelStep admits ⟨s, live⟩ ⟨s₂, ⟨v, roundBytes bytes, false⟩ :: live⟩
  | free {s s₁ s₂ : Sys PageTables} {live : List Chunk} {c : Chunk} {depth : ℕ}
      (writes : ClientWrites live s s₁) (pages : s₁.pages = s.pages) (member : c ∈ live)
      (admitted : admits s₁ c) (returned : kfree (depth + 1) c.vma s₁ = .ok ((), s₂)) :
      KernelStep admits ⟨s, live⟩ ⟨s₂, live.erase c⟩
  | page {s s₁ s₂ : Sys PageTables} {live : List Chunk} {pma depth : ℕ}
      (writes : ClientWrites live s s₁) (pages : s₁.pages = s.pages)
      (admitted : s₁.pages.freeList ≠ 0 →
        admits (s₁.popped s₁.pages.freeList) (nodeChunk s₁.pages.freeList))
      (returned : pageNew (depth + 2) s₁ = .ok (pma, s₂)) :
      KernelStep admits ⟨s, live⟩ ⟨s₂, live⟩

/-- The free list has room for the nodes `kfree` of the block needs. -/
def NodesRoom (s : Sys PageTables) (c : Chunk) : Prop :=
  ∀ H nodes before post, KernelMemory s H nodes → H.chunks = before.reverse ++ c :: post →
    NodesFit H before c post

/-- The blocks in use are those of the callers and the nodes of the page list. -/
structure KernelClient (w : Client PageTables) (H : Heap) (nodes : List ℕ) : Prop where
  memory : KernelMemory w.sys H nodes
  live : (liveOf H.chunks).Perm (w.live ++ nodes.map nodeChunk)

section Calls

variable {s s' s₁ : Sys PageTables} {H M : Heap} {nodes news pages popped rest : List ℕ}
  {live : List Chunk} {c : Chunk} {alignment bytes target n v depth : ℕ}

/-- The callers' blocks are no nodes. -/
theorem KernelClient.block (client : KernelClient ⟨s, live⟩ H nodes) (member : c ∈ live) :
    CallerBlock H nodes c where
  live := mem_liveOf.mp (client.live.mem_iff.mpr (List.mem_append_left _ member))
  foreign m listed same := by
    have nodup : (live ++ nodes.map nodeChunk).Nodup :=
      client.live.nodup_iff.mp (H.nodup_chunks.filter _)
    exact (List.nodup_append.mp nodup).2.2 c member _ (List.mem_map_of_mem listed) same.symm

/-- Writes of the callers. -/
theorem KernelClient.writes (client : KernelClient ⟨s, live⟩ H nodes)
    (writes : ClientWrites live s s₁) (pages : s₁.pages = s.pages) :
    KernelClient ⟨s₁, live⟩ H nodes ∧ Accessed nodes s s₁ := by
  have off : ∀ m ∈ nodes, ∀ a, (nodeChunk m).Holds a → s₁.mem a = s.mem a := by
    intro m listed a inside
    refine writes.mem a fun c member holds => ?_
    have block := client.block member
    have chunk := (client.memory.heap.live m listed).1
    exact block.foreign m listed (Heap.holds_unique chunk block.live.1 inside holds)
  have more : ClientWrites (live ++ nodes.map nodeChunk) s s₁ :=
    ⟨fun a out => writes.mem a fun c member => out c (List.mem_append_left _ member),
      writes.ctxt, writes.log⟩
  obtain ⟨ctx, terminal⟩ := more.context client.memory.heap.ctx client.live
  refine ⟨⟨⟨⟨ctx, fun chunks => terminal (client.memory.heap.terminal chunks), ?_,
    client.memory.heap.live⟩, client.memory.below, pages ▸ client.memory.present,
    pages ▸ client.memory.tables⟩, client.live⟩,
    ⟨pages, fun m listed => off m listed m (nodeChunk_holds m).1, [], writes.log,
      fun _ none => absurd none List.not_mem_nil⟩⟩
  have list := client.memory.heap.list
  unfold PageNodes at list ⊢
  rw [pages]
  exact list.congr fun m listed => off m listed _ (nodeChunk_holds m).2

/-- A block from the free list. -/
theorem KernelClient.found (client : KernelClient ⟨s, live⟩ H nodes) (found : Found H n v M)
    (memory : KernelMemory s' M nodes) : KernelClient ⟨s', ⟨v, n, false⟩ :: live⟩ M nodes :=
  ⟨memory, found.live.trans (client.live.cons _)⟩

/-- A block at the end of the heap. -/
theorem KernelClient.grown (client : KernelClient ⟨s, live⟩ H nodes)
    (grown : Grown s H nodes target n s' M popped rest) (memory : KernelMemory s' M rest) :
    KernelClient ⟨s', ⟨target, n, false⟩ :: live⟩ M rest := by
  refine ⟨memory, grown.heaps.live_rest ?_⟩
  rw [← grown.nodes]
  exact client.live

/-- A block that was freed. -/
theorem KernelClient.released (client : KernelClient ⟨s, live⟩ H nodes) (member : c ∈ live)
    (released : Released H nodes c s M news pages s') :
    KernelClient ⟨s', live.erase c⟩ M (news ++ nodes) := by
  refine ⟨released.memory, (List.perm_cons c).mp (released.live.trans ?_)⟩
  rw [List.map_append]
  have blocks : (liveOf H.chunks).Perm (c :: (live.erase c ++ nodes.map nodeChunk)) :=
    client.live.trans ((List.perm_cons_erase member).append_right _)
  refine (blocks.append_left _).trans (List.perm_middle.trans (List.Perm.cons _ ?_))
  rw [← List.append_assoc, ← List.append_assoc]
  exact List.perm_append_comm.append_right _

/-- A state with another page list, log and next frame. -/
theorem KernelMemory.congr (memory : KernelMemory s H nodes) (mem : s'.mem = s.mem)
    (ctxt : s'.ctxt = s.ctxt) (table : s'.pages.table = s.pages.table)
    (list : PageNodes s' rest) (sub : ∀ m ∈ rest, m ∈ nodes) : KernelMemory s' H rest := by
  have ctx : HeapContext s' H := by
    refine ⟨memory.heap.ctx.rep.congr (by rw [mem]) (fun _ _ => by rw [mem]; exact ⟨rfl, rfl⟩)
      (fun _ _ _ => by rw [mem]; exact ⟨rfl, rfl⟩) (by rw [ctxt]), ?_, ?_, memory.heap.ctx.closed⟩
    · rw [ctxt]
      exact memory.heap.ctx.start
    · rw [ctxt]
      exact memory.heap.ctx.atEnd
  refine ⟨⟨ctx, fun chunks => ?_, list, fun m member => memory.heap.live m (sub m member)⟩,
    memory.below, fun p multiple lower upper => ?_, fun v lower upper => ?_⟩
  · unfold TerminalClear
    rw [mem]
    exact memory.heap.terminal chunks
  · rw [PageTables.mapped_of_table table]
    exact memory.present p multiple lower upper
  · rw [entryOf_table table]
    exact memory.tables v lower upper

/-- `page_new` pops a node and frees it as any caller would free a block. -/
theorem KernelClient.pop (client : KernelClient ⟨s, live⟩ H (n :: rest)) :
    KernelClient ⟨s.popped n, nodeChunk n :: live⟩ H rest ∧ s.pages.freeList = n ∧ n ≠ 0 ∧
      ∀ depth, pageNew (depth + 1) s = (do
        kfree depth (nodeChunk n).vma
        recordPageNew (s.mem n)
        pure (s.mem n)) (s.popped n) := by
  have memory := client.memory
  obtain ⟨head, nonnull, list⟩ := PointerList.singly_cons.mp memory.heap.list
  have range := H.range (memory.heap.live n List.mem_cons_self).1
  have bound := H.bound
  unfold nodeChunk pageFreeNodeSize at range
  dsimp only at range
  have word : n + 4 < 2 ^ 32 := by omega
  refine ⟨⟨memory.congr rfl rfl rfl list fun m member => List.mem_cons_of_mem _ member, ?_⟩,
    head, nonnull, fun depth => pageNewWith_cons _ head nonnull word⟩
  exact client.live.trans List.perm_middle

/-- The frame behind all others is taken. -/
theorem KernelMemory.bump (memory : KernelMemory s H []) :
    (∀ depth, pageNew (depth + 1) s = .ok (s.pages.heapEndPma, s.bumped)) ∧
      KernelMemory s.bumped H [] :=
  ⟨fun _ => pageNewWith_nil _ (PointerList.singly_nil.mp memory.heap.list),
    memory.congr rfl rfl rfl memory.heap.list fun _ => id⟩

end Calls

/-! ## Steps and runs -/

section Steps

variable {admits : Sys PageTables → Chunk → Prop} {w w' : Client PageTables} {H : Heap}
  {nodes : List ℕ}

/-- A call of `alloc` that returned had room for its padding. -/
theorem not_eight_of_returned {s s' : Sys PageTables} {alignment bytes v depth : ℕ}
    (memory : KernelMemory s H nodes) (aligned : PageAlignment alignment)
    (suffices_ : SpaceSuffices s alignment bytes)
    (returned : kmallocAligned (depth + 1) bytes alignment s = .ok (v, s')) :
    alignedEnd H.stop alignment ≠ H.stop + 8 := by
  intro eight
  have dies := memory.dies aligned suffices_ eight (depth + 1)
  cases dies.symm.trans returned

/-- **One step keeps the kernel memory well formed**, if the free list has room for the
nodes of the pages that are released. -/
theorem KernelStep.client (room : ∀ {s c}, admits s c → NodesRoom s c)
    (client : KernelClient w H nodes) (step : KernelStep admits w w') :
    ∃ M nodes', KernelClient w' M nodes' := by
  cases step with
  | alloc writes pages aligned suffices_ returned =>
      have client₁ := (client.writes writes pages).1
      have notEight := not_eight_of_returned client₁.memory aligned suffices_ returned
      rcases client₁.memory.alloc_cases aligned suffices_ notEight with
        ⟨-, v, t, M, runs, memory, found, -⟩ | extends_
      · cases (runs _).symm.trans returned
        exact ⟨M, nodes, client₁.found found memory⟩
      · obtain ⟨s', M, popped, rest, runs, grown, memory, -⟩ :=
          extends_ (fun _ _ _ => True) ⟨fun _ _ _ _ _ _ => trivial, fun _ _ _ _ => trivial⟩ trivial
        cases (runs _).symm.trans returned
        exact ⟨M, rest, client₁.grown grown memory⟩
  | free writes pages member admitted returned =>
      have client₁ := (client.writes writes pages).1
      have block := client₁.block member
      obtain ⟨before, post, split⟩ := block.live.split
      obtain ⟨M, news, pages', s', runs, released, -⟩ := client₁.memory.kfree_fits block split
        (room admitted H nodes before post client₁.memory split)
      cases (runs _).symm.trans returned
      exact ⟨M, news ++ nodes, client₁.released member released⟩
  | page writes pages admitted returned =>
      have client₁ := (client.writes writes pages).1
      cases nodes with
      | nil =>
          obtain ⟨runs, memory⟩ := client₁.memory.bump
          cases (runs _).symm.trans returned
          exact ⟨H, [], memory, client₁.live⟩
      | cons n rest =>
          obtain ⟨popped, head, nonnull, run⟩ := client₁.pop
          rw [head] at admitted
          have block := popped.block List.mem_cons_self
          obtain ⟨before, post, split⟩ := block.live.split
          obtain ⟨M, news, pages', s', runs, released, -⟩ := popped.memory.kfree_fits block split
            (room (admitted nonnull) H rest before post popped.memory split)
          have final := popped.released List.mem_cons_self released
          rw [List.erase_cons_head] at final
          rw [run] at returned
          cases (Prog.bind_of_ok (runs _)).symm.trans returned
          exact ⟨M, news ++ rest, final.memory.congr rfl rfl rfl final.memory.heap.list
            fun _ => id, final.live⟩

end Steps

end TrashOS
