import TrashOS.Page.Run

/-!
# What a call on the kernel heap can do

`StepOutcome` lists the five outcomes of a call: `alloc` finds a block or extends the
heap, `kfree` releases a block, `page_new` takes the frame behind all others or pops a
node.  Each comes with what happened to the heap, to the page list and to the tables,
and `KernelStep.outcome` says that there are no others.  An invariant of the kernel is
then one case for each.
-/

namespace TrashOS

/-- A `kfree` of `c` releases pages only if the block ends up at the end of the heap. -/
def AtEndOnly (H : Heap) (c : Chunk) (pages : List ℕ) : Prop :=
  ∃ before post : List Chunk, H.chunks = before.reverse ++ c :: post ∧
    ((absorbNext c post).2 ≠ [] → pages = [])

/-- What a call made of the client `w`, its heap `H` and its page list `nodes`.  The state
in which the call starts differs from that of `w` by writes of the callers. -/
inductive StepOutcome (admits : Sys PageTables → Chunk → Prop) (w : Client PageTables) (H : Heap)
    (nodes : List ℕ) : Client PageTables → Heap → List ℕ → Prop
  | found {s' : Sys PageTables} {M : Heap} {n v : ℕ} (accessed : Accessed nodes w.sys s')
      (found : Found H n v M) :
      StepOutcome admits w H nodes ⟨s', ⟨v, n, false⟩ :: w.live⟩ M nodes
  | grown {s₁ s' : Sys PageTables} {M : Heap} {target n : ℕ} {popped rest : List ℕ}
      (accessed : Accessed nodes w.sys s₁) (client : KernelClient ⟨s₁, w.live⟩ H nodes)
      (grown : Grown s₁ H nodes target n s' M popped rest)
      (loop : ∀ I, LoopKeeps I → I (startsBetween target (target + n + 8)) s₁ nodes →
        I [] s' rest) :
      StepOutcome admits w H nodes ⟨s', ⟨target, n, false⟩ :: w.live⟩ M rest
  | released {s₁ s' : Sys PageTables} {M : Heap} {c : Chunk} {news pages : List ℕ}
      (accessed : Accessed nodes w.sys s₁) (client : KernelClient ⟨s₁, w.live⟩ H nodes)
      (member : c ∈ w.live) (admitted : admits s₁ c)
      (released : Released H nodes c s₁ M news pages s') (atEnd : AtEndOnly H c pages) :
      StepOutcome admits w H nodes ⟨s', w.live.erase c⟩ M (news ++ nodes)
  | bumped {s₁ : Sys PageTables} (empty : nodes = []) (accessed : Accessed nodes w.sys s₁) :
      StepOutcome admits w H nodes ⟨s₁.bumped, w.live⟩ H []
  | popped {s₁ s' : Sys PageTables} {M : Heap} {n : ℕ} {rest news pages : List ℕ}
      (head : nodes = n :: rest) (accessed : Accessed nodes w.sys s₁)
      (client : KernelClient ⟨s₁.popped n, nodeChunk n :: w.live⟩ H rest)
      (admitted : admits (s₁.popped n) (nodeChunk n))
      (released : Released H rest (nodeChunk n) (s₁.popped n) M news pages s')
      (atEnd : AtEndOnly H (nodeChunk n) pages) :
      StepOutcome admits w H nodes
        ⟨{ s' with log := .pageNew (s₁.mem n) s'.pages :: s'.log }, w.live⟩ M (news ++ rest)

section Outcome

variable {admits : Sys PageTables → Chunk → Prop} {w w' : Client PageTables} {H M : Heap}
  {nodes rest : List ℕ}

theorem Accessed.trans {s t u : Sys PageTables} (first : Accessed nodes s t)
    (second : Accessed nodes t u) : Accessed nodes s u where
  pages := second.pages.trans first.pages
  mem n member := (second.mem n member).trans (first.mem n member)
  log := by
    obtain ⟨es, logEq, accesses⟩ := first.log
    obtain ⟨es', logEq', accesses'⟩ := second.log
    refine ⟨es' ++ es, by rw [logEq', logEq, List.append_assoc], fun e member => ?_⟩
    exact (List.mem_append.mp member).elim (accesses' e) (accesses e)

/-- All that turns of the page loop keep, from one state on. -/
theorem loopKeeps_all (all : List ℕ) (s : Sys PageTables) (nodes : List ℕ) :
    LoopKeeps fun todo t rest => ∀ I, LoopKeeps I → I all s nodes → I todo t rest where
  accessed todo _ _ _ holds accessed I keeps start :=
    keeps.accessed todo (holds I keeps start) accessed
  turn holds new table there I keeps start := keeps.turn (holds I keeps start) new table there

theorem Accessed.suffix {s s' : Sys PageTables} (accessed : Accessed nodes s s') :
    s.log <:+ s'.log := by
  obtain ⟨es, logEq, -⟩ := accessed.log
  exact ⟨es, logEq.symm⟩

theorem Released.suffix {s s' : Sys PageTables} {c : Chunk} {news pages : List ℕ}
    (released : Released H nodes c s M news pages s') : s.log <:+ s'.log := by
  obtain ⟨es, logEq, -⟩ := released.log
  exact ⟨es, logEq.symm⟩

/-- The page loop adds to the log. -/
theorem logLoop_keeps (log : List (Event PageTables)) : LoopKeeps fun _ s _ => log <:+ s.log where
  accessed _ _ _ _ holds accessed := holds.trans accessed.suffix
  turn {page todo s P nodes pma s' rest} holds new _ _ := by
    obtain ⟨es, logEq, -⟩ := new.log
    have later : s.log <:+ s'.log := by
      rw [logEq]
      exact (List.suffix_append es _).trans (List.suffix_cons _ _)
    exact (holds.trans later).trans (List.suffix_cons _ _)

/-- **The outcomes of a call.** -/
theorem KernelStep.outcome (room : ∀ {s c}, admits s c → NodesRoom s c)
    (client : KernelClient w H nodes) (step : KernelStep admits w w') :
    ∃ M nodes', StepOutcome admits w H nodes w' M nodes' ∧ KernelClient w' M nodes' := by
  cases step with
  | alloc writes pages aligned suffices_ returned =>
      obtain ⟨client₁, accessed₁⟩ := client.writes writes pages
      have notEight := not_eight_of_returned client₁.memory aligned suffices_ returned
      rcases client₁.memory.alloc_cases aligned suffices_ notEight with
        ⟨-, v, t, M, runs, memory, found, accessed⟩ | extends_
      · cases (runs _).symm.trans returned
        exact ⟨M, nodes, .found (accessed₁.trans accessed) found, client₁.found found memory⟩
      · obtain ⟨s', M, popped, rest, runs, grown, memory, final⟩ :=
          extends_ _ (loopKeeps_all _ _ nodes) fun _ _ start => start
        cases (runs _).symm.trans returned
        exact ⟨M, rest, .grown accessed₁ client₁ grown final, client₁.grown grown memory⟩
  | free writes pages member admitted returned =>
      obtain ⟨client₁, accessed₁⟩ := client.writes writes pages
      have block := client₁.block member
      obtain ⟨before, post, split⟩ := block.live.split
      obtain ⟨M, news, pages', s', runs, released, none⟩ := client₁.memory.kfree_fits block split
        (room admitted H nodes before post client₁.memory split)
      cases (runs _).symm.trans returned
      exact ⟨M, news ++ nodes, .released accessed₁ client₁ member admitted released
        ⟨before, post, split, none⟩,
        client₁.released member released⟩
  | page writes pages admitted returned =>
      obtain ⟨client₁, accessed₁⟩ := client.writes writes pages
      cases nodes with
      | nil =>
          obtain ⟨runs, memory⟩ := client₁.memory.bump
          cases (runs _).symm.trans returned
          exact ⟨H, [], .bumped rfl accessed₁, memory, client₁.live⟩
      | cons n rest =>
          obtain ⟨popped, head, nonnull, run⟩ := client₁.pop
          rw [head] at admitted
          have block := popped.block List.mem_cons_self
          obtain ⟨before, post, split⟩ := block.live.split
          obtain ⟨M, news, pages', s', runs, released, none⟩ := popped.memory.kfree_fits block split
            (room (admitted nonnull) H rest before post popped.memory split)
          have final := popped.released List.mem_cons_self released
          rw [List.erase_cons_head] at final
          rw [run] at returned
          cases (Prog.bind_of_ok (runs _)).symm.trans returned
          exact ⟨M, news ++ rest, .popped rfl accessed₁ popped (admitted nonnull) released
            ⟨before, post, split, none⟩,
            final.memory.congr rfl rfl rfl final.memory.heap.list fun _ => id, final.live⟩

/-- No call moves the first descriptor. -/
theorem StepOutcome.first (outcome : StepOutcome admits w H nodes w' M rest) :
    M.first = H.first := by
  cases outcome with
  | found accessed found => exact found.first
  | grown accessed client grown loop => exact grown.heaps.first
  | released accessed client member admitted released atEnd => exact released.first
  | bumped empty accessed => rfl
  | popped head accessed client admitted released atEnd => exact released.first

/-- A call adds to the log. -/
theorem StepOutcome.suffix (outcome : StepOutcome admits w H nodes w' M rest) :
    w.sys.log <:+ w'.sys.log := by
  cases outcome with
  | found accessed found => exact accessed.suffix
  | grown accessed client grown loop =>
      exact accessed.suffix.trans (loop _ (logLoop_keeps _) List.suffix_rfl)
  | released accessed client member admitted released atEnd =>
      exact accessed.suffix.trans released.suffix
  | bumped empty accessed => exact accessed.suffix.trans (List.suffix_cons _ _)
  | @popped s₁ s' M n rest news pages head accessed client admitted released atEnd =>
      have popped : s₁.log <:+ (s₁.popped n).log :=
        (List.suffix_cons _ _).trans (List.suffix_cons _ _)
      exact ((accessed.suffix.trans popped).trans released.suffix).trans (List.suffix_cons _ _)

end Outcome

end TrashOS
