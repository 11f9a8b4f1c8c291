import TrashOS.Lib.Ledger
import TrashOS.Page.Frames
import TrashOS.Page.Run

/-!
# Who owns a page frame

A frame is noted in a node of `page_free_list`, it is the frame of a present entry, it
is in the hands of a caller of `page_new`, or it lies at or above
`kernel_heap_end_pma`.  `ledgerOf` reads this off a state as a ledger whose slots are
the pages; the pages of the heap hold their frames alone.

Every call keeps the ledger sound (`Owned`), as long as `kernel_heap_end_pma` does not
wrap around (`NextKept`) and every `kfree` that takes the end-of-heap branch leaves from
an end inside a page: at an end between two pages the loop of `free` releases the
page behind the heap, whose entry is not present but may still name a frame.
-/

namespace TrashOS

/-! ## The ledger of a state -/

/-- The frame of a page, by page number, if its entry is present. -/
def heldFrame (pt : PageTables) (page : ℕ) : Option ℕ :=
  (pt.entryOf (page * pageSize)).bind fun e =>
    if entryPresent e then some (e &&& Word32.not 0xfff) else none

/-- The frames `page_new` returned that `page_free` has not released since; the last
event is the first one of the log. -/
def outstanding : List (Event PageTables) → List ℕ
  | [] => []
  | .pageNew pma _ :: es => pma :: outstanding es
  | .pageRelease pma :: es => (outstanding es).filter fun u => u ≠ pma
  | _ :: es => outstanding es

/-- The ledger of a state whose page list is `nodes`. -/
def ledgerOf (s : Sys PageTables) (nodes : List ℕ) : Ledger ℕ where
  spare := nodes.map s.mem
  next := s.pages.heapEndPma
  held := heldFrame s.pages
  issued := fun u => u ∈ outstanding s.log

/-- Whenever `page_new` returned a frame, it was the frame of no present entry and in
nobody's hands. -/
def HandsOutFree : List (Event PageTables) → Prop
  | [] => True
  | .pageNew pma pages :: es =>
      ((∀ page, heldFrame pages page ≠ some pma) ∧ pma ∉ outstanding es) ∧ HandsOutFree es
  | _ :: es => HandsOutFree es

/-- `kernel_heap_end_pma` did not wrap around in any call of `page_new`. -/
def NextKept (es : List (Event PageTables)) : Prop :=
  ∀ pma pages, Event.pageNew pma pages ∈ es → pages.heapEndPma ≠ 0

/-- **No frame is owned twice.**  The pages of `sole` share their frame with no other
page. -/
structure Owned (sole : ℕ → Prop) (s : Sys PageTables) (nodes : List ℕ) : Prop where
  ledger : (ledgerOf s nodes).Sound sole
  next : IsFrame s.pages.heapEndPma
  listed : ∀ n ∈ nodes, IsFrame (s.mem n)
  handsOut : HandsOutFree s.log

/-- The pages that lie behind the first page of the heap and start before its end. -/
def HeapPage (H : Heap) (page : ℕ) : Prop := H.first < page * pageSize ∧ page * pageSize < H.stop

section Read

variable {pt pt' : PageTables} {s s' : Sys PageTables} {v entry pma : ℕ}
  {nodes : List ℕ} {log es : List (Event PageTables)}

theorem heldFrame_eq_some :
    heldFrame pt (v / pageSize) = some pma ↔
      ∃ e, pt.entryOf v = some e ∧ entryPresent e = true ∧ e &&& Word32.not 0xfff = pma := by
  have same : v / pageSize * pageSize / pageSize = v / pageSize :=
    Nat.mul_div_cancel _ (by decide)
  unfold heldFrame
  rw [PageTables.entryOf_congr same]
  cases pt.entryOf v with
  | none => simp
  | some e => simp [Option.bind]

theorem heldFrame_of_table (same : pt'.table = pt.table) : heldFrame pt' = heldFrame pt := by
  funext page
  unfold heldFrame
  rw [entryOf_table same]

/-- Writing a present entry into a table. -/
theorem heldFrame_write (there : (pt.entryOf v).isSome) (present : entryPresent entry = true) :
    heldFrame (pt.write v entry) =
      Function.update (heldFrame pt) (v / pageSize) (some (entry &&& Word32.not 0xfff)) := by
  obtain ⟨old, there⟩ := Option.isSome_iff_exists.mp there
  funext page
  have number : page * pageSize / pageSize = page := Nat.mul_div_cancel _ (by decide)
  by_cases same : page = v / pageSize
  · rw [same, Function.update_self]
    refine heldFrame_eq_some.mpr ⟨entry, ?_, present, rfl⟩
    rw [PageTables.entryOf_write_same rfl, there]
    rfl
  · rw [Function.update_of_ne same]
    unfold heldFrame
    rw [PageTables.entryOf_write_other (number.symm ▸ same)]

/-- Accesses to words are no events of the page layer. -/
theorem outstanding_of_accesses
    (accesses : ∀ e ∈ es, ∃ a mapped, e = .load a mapped ∨ e = .store a mapped) :
    outstanding (es ++ log) = outstanding log := by
  induction es with
  | nil => rfl
  | cons e es ih =>
      obtain ⟨a, mapped, rfl | rfl⟩ := accesses e List.mem_cons_self
      all_goals exact ih fun e member => accesses e (List.mem_cons_of_mem _ member)

theorem handsOutFree_of_no_new (noNew : ∀ pma pages, Event.pageNew pma pages ∉ es) :
    HandsOutFree (es ++ log) ↔ HandsOutFree log := by
  induction es with
  | nil => rfl
  | cons e es ih =>
      have later := ih fun pma pages member => noNew pma pages (List.mem_cons_of_mem _ member)
      cases e with
      | pageNew pma pages => exact absurd List.mem_cons_self (noNew pma pages)
      | _ => exact later

/-- Released frames are in nobody's hands. -/
theorem outstanding_of_releases {pmas : List ℕ} (releases : Releases pmas es) {u : ℕ}
    (issued : u ∈ outstanding (es ++ log)) : u ∉ pmas ∧ u ∈ outstanding log := by
  have out : ∀ {es : List (Event PageTables)}, (∀ pma pages, Event.pageNew pma pages ∉ es) →
      u ∈ outstanding (es ++ log) → (∀ pma, .pageRelease pma ∈ es → u ≠ pma) ∧
        u ∈ outstanding log := by
    intro es
    induction es with
    | nil => exact fun _ here => ⟨fun _ none => absurd none List.not_mem_nil, here⟩
    | cons e es ih =>
        intro noNew here
        have noNew' : ∀ pma pages, Event.pageNew pma pages ∉ es := fun pma pages member =>
          noNew pma pages (List.mem_cons_of_mem _ member)
        cases e with
        | pageNew pma pages => exact absurd List.mem_cons_self (noNew pma pages)
        | pageRelease pma =>
            obtain ⟨here, differ⟩ := List.mem_filter.mp here
            obtain ⟨others, before⟩ := ih noNew' here
            refine ⟨fun pma' member => ?_, before⟩
            rcases List.mem_cons.mp member with same | member
            · cases same
              exact of_decide_eq_true differ
            · exact others pma' member
        | _ =>
            obtain ⟨others, before⟩ := ih noNew' here
            refine ⟨fun pma' member => others pma' ?_, before⟩
            exact (List.mem_cons.mp member).resolve_left fun same => by cases same
  obtain ⟨others, before⟩ := out releases.noNew issued
  exact ⟨fun member => others u (releases.released u member) rfl, before⟩

theorem NextKept.before (es : List (Event PageTables)) (kept : NextKept (es ++ log)) :
    NextKept log :=
  fun pma pages member => kept pma pages (List.mem_append_right _ member)

/-- Accesses of the allocator leave the ledger alone. -/
theorem Owned.accessed {sole sole' : ℕ → Prop} (owned : Owned sole s nodes)
    (accessed : Accessed nodes s s') (less : ∀ page, sole' page → sole page) :
    Owned sole' s' nodes := by
  obtain ⟨es, logEq, accesses⟩ := accessed.log
  refine ⟨owned.ledger.mono ?_ ?_ ?_ (fun u issued => ?_) less, ?_,
    fun n member => ?_, ?_⟩
  · exact List.map_congr_left accessed.mem
  · change s'.pages.heapEndPma = _
    rw [accessed.pages]
    rfl
  · change heldFrame s'.pages = _
    rw [accessed.pages]
    rfl
  · change u ∈ outstanding s'.log at issued
    rw [logEq, outstanding_of_accesses accesses] at issued
    exact issued
  · exact accessed.pages ▸ owned.next
  · rw [accessed.mem n member]
    exact owned.listed n member
  · rw [logEq, handsOutFree_of_no_new]
    · exact owned.handsOut
    · intro pma pages member
      obtain ⟨a, mapped, eq | eq⟩ := accesses _ member <;> cases eq

end Read

/-! ## Taking a frame -/

section Take

variable {s s' : Sys PageTables} {P : Heap} {nodes rest : List ℕ} {sole : ℕ → Prop}
  {pma page n : ℕ}

/-- The ledger after `page_new` took a frame and before it is in somebody's hands. -/
def takenFrom (s : Sys PageTables) (rest : List ℕ) (next : ℕ) : Ledger ℕ :=
  { ledgerOf s rest with next := next }

/-- The frame behind all others, unless it is the last one. -/
theorem Owned.takeNext (owned : Owned sole s [])
    (kept : Word32.add s.pages.heapEndPma pageSize ≠ 0) :
    (takenFrom s [] (Word32.add s.pages.heapEndPma pageSize)).Sound sole ∧
      (takenFrom s [] (Word32.add s.pages.heapEndPma pageSize)).Fresh s.pages.heapEndPma := by
  have next := owned.next
  have more : s.pages.heapEndPma < Word32.add s.pages.heapEndPma pageSize := by
    have aligned := next.aligned
    have word := next.word
    unfold pageSize at *
    unfold Word32.add at *
    omega
  exact owned.ledger.takeNew more

/-- The frame noted in the first node. -/
theorem Owned.takeNode (owned : Owned sole s (n :: rest)) :
    (takenFrom s rest s.pages.heapEndPma).Sound sole ∧
      (takenFrom s rest s.pages.heapEndPma).Fresh (s.mem n) :=
  owned.ledger.take (show (ledgerOf s (n :: rest)).spare = s.mem n :: rest.map s.mem from rfl)

/-- The frame is now in somebody's hands. -/
theorem Owned.issued {u : ℕ} {next : ℕ} (sound : (takenFrom s rest next).Sound sole)
    (fresh : (takenFrom s rest next).Fresh u) (mem : ∀ n ∈ rest, s'.mem n = s.mem n)
    (nextEq : s'.pages.heapEndPma = next) (table : s'.pages.table = s.pages.table)
    (log : outstanding s'.log = u :: outstanding s.log) : (ledgerOf s' rest).Sound sole := by
  refine (sound.issue fresh).mono (List.map_congr_left mem) nextEq (heldFrame_of_table table)
    (fun w here => ?_) fun _ => id
  change w ∈ outstanding s'.log at here
  rw [log] at here
  exact List.mem_cons.mp here

/-- **After `page_new` in the middle of an extension** no frame is owned twice, and the
new one is the frame of no page yet. -/
theorem NewPage.owned (new : NewPage s P nodes pma s' rest) (table : s'.pages.table = s.pages.table)
    (owned : Owned sole s nodes) (kept : s'.pages.heapEndPma ≠ 0) :
    Owned sole s' rest ∧ IsFrame pma ∧ pma < s'.pages.heapEndPma ∧ pma ∉ rest.map s'.mem ∧
      ∀ page, heldFrame s'.pages page ≠ some pma := by
  have taken : (takenFrom s rest s'.pages.heapEndPma).Sound sole ∧
      (takenFrom s rest s'.pages.heapEndPma).Fresh pma := by
    rcases new.source with ⟨rfl, rfl, rfl, next⟩ | ⟨next, n, rfl, rfl⟩
    · rw [next] at kept ⊢
      exact owned.takeNext kept
    · rw [next]
      exact owned.takeNode
  obtain ⟨sound, fresh⟩ := taken
  obtain ⟨frames, frame, -⟩ := new.frames rfl
    (⟨owned.next, owned.listed, by simp⟩ : Frames P.first [] s nodes)
  obtain ⟨es, logEq, accesses⟩ := new.log
  have same : rest.map s'.mem = rest.map s.mem :=
    List.map_congr_left fun n member => (new.listed n member).2
  have held : heldFrame s'.pages = heldFrame s.pages := heldFrame_of_table table
  have log : outstanding s'.log = pma :: outstanding s.log := by
    rw [logEq]
    exact congrArg (List.cons pma) (outstanding_of_accesses accesses)
  refine ⟨⟨Owned.issued sound fresh (fun n member => (new.listed n member).2) rfl table log,
    frames.next, frames.listed, ?_⟩, frame, fresh.below, ?_, ?_⟩
  · have before : HandsOutFree (es ++ s.log) := by
      refine (handsOutFree_of_no_new fun u pages member => ?_).mpr owned.handsOut
      obtain ⟨a, mapped, eq | eq⟩ := accesses _ member <;> cases eq
    rw [logEq]
    refine ⟨⟨?_, ?_⟩, before⟩
    · rw [held]
      exact fresh.unheld
    · rw [outstanding_of_accesses accesses]
      exact fresh.unissued
  · rw [same]
    exact fresh.notSpare
  · rw [held]
    exact fresh.unheld

/-- A page is mapped to a frame that no page has. -/
theorem Owned.map (owned : Owned sole s nodes) (there : (s.pages.entryOf page).isSome)
    (frame : IsFrame pma) (below : pma < s.pages.heapEndPma) (notSpare : pma ∉ nodes.map s.mem)
    (unheld : ∀ page, heldFrame s.pages page ≠ some pma) :
    Owned (fun k => k = page / pageSize ∨ sole k) (s.mappedTo page pma) nodes := by
  refine ⟨(owned.ledger.hold (k := page / pageSize) below notSpare unheld).mono rfl rfl ?_
    (fun _ => id) (fun _ => id), owned.next, owned.listed, owned.handsOut⟩
  refine (heldFrame_write there (entryPresent_or pma)).trans ?_
  rw [frame.entry.1]
  rfl

end Take

/-! ## The page loop -/

section Loop

/-- The pages of the heap, and those the loop has mapped. -/
def LoopPage (H : Heap) (all todo : List ℕ) (page : ℕ) : Prop :=
  HeapPage H page ∨
    (page ∈ all.map (fun p => p / pageSize) ∧ page ∉ todo.map fun p => p / pageSize)

/-- No frame is owned twice during the page loop. -/
def LoopOwned (H : Heap) (all todo : List ℕ) (s : Sys PageTables) (nodes : List ℕ) : Prop :=
  NextKept s.log → Owned (LoopPage H all todo) s nodes

theorem Owned.mono {sole' : ℕ → Prop} (owned : Owned sole s nodes)
    (less : ∀ page, sole' page → sole page) : Owned sole' s nodes :=
  ⟨owned.ledger.mono rfl rfl rfl (fun _ => id) less, owned.next, owned.listed, owned.handsOut⟩

/-- The page loop keeps the ledger sound.  `sole` are the pages whose frames are their own
while the pages of the list are still to be mapped: a turn may add the page it maps. -/
theorem ownedLoop_keeps {sole : List ℕ → ℕ → Prop}
    (turn : ∀ page todo k, sole todo k → k = page / pageSize ∨ sole (page :: todo) k) :
    LoopKeeps fun todo s nodes => NextKept s.log → Owned (sole todo) s nodes where
  accessed todo s s' nodes holds accessed := by
    intro kept
    obtain ⟨es, logEq, -⟩ := accessed.log
    rw [logEq] at kept
    exact (holds (NextKept.before es kept)).accessed accessed fun _ => id
  turn {page todo s P nodes pma s' rest} holds new table there := by
    intro kept
    obtain ⟨es, logEq, -⟩ := new.log
    have keptS : NextKept (.pageNew pma s'.pages :: (es ++ s.log)) := fun u pages member =>
      kept u pages (List.mem_cons_of_mem _ (logEq ▸ member))
    have owned := holds (NextKept.before (.pageNew pma s'.pages :: es) keptS)
    obtain ⟨owned', frame, below, notSpare, unheld⟩ :=
      new.owned table owned (keptS pma s'.pages List.mem_cons_self)
    exact (owned'.map there frame below notSpare unheld).mono (turn page todo)

theorem loopOwned_keeps (H : Heap) (all : List ℕ) : LoopKeeps (LoopOwned H all) := by
  refine ownedLoop_keeps fun page todo k loop => ?_
  rcases loop with heap | ⟨member, done⟩
  · exact Or.inr (Or.inl heap)
  · by_cases same : k = page / pageSize
    · exact Or.inl same
    · refine Or.inr (Or.inr ⟨member, fun listed => ?_⟩)
      rw [List.map_cons] at listed
      exact done ((List.mem_cons.mp listed).resolve_left same)

end Loop

/-! ## `kfree` -/

section Release

variable {s s' : Sys PageTables} {H M : Heap} {nodes news pages : List ℕ} {c : Chunk}

/-- The frame in an entry, whatever the entry is. -/
theorem isFrame_mask (e : ℕ) : IsFrame (e &&& Word32.not 0xfff) where
  aligned := by
    have low : Word32.not 0xfff % 2 ^ 12 = 0 := by decide +kernel
    change (e &&& Word32.not 0xfff) % 2 ^ 12 = 0
    rw [Nat.and_mod_two_pow, low, Nat.and_zero]
  word := Nat.and_lt_two_pow e (by decide +kernel)

/-- An entry without its present bit is not present. -/
theorem entryPresent_clear (e : ℕ) : entryPresent (e &&& Word32.not pagePresent) = false := by
  have clear : Word32.not pagePresent &&& pagePresent = 0 := by decide +kernel
  unfold entryPresent
  rw [Nat.and_assoc, clear, Nat.and_zero]
  rfl

/-- The pages that lost their present bit hold no frame any more. -/
theorem Unmapped.held (unmapped : Unmapped pages s s') :
    heldFrame s'.pages = fun page =>
      if page ∈ pages.map (fun p => p / pageSize) then none else heldFrame s.pages page := by
  funext page
  have number : page * pageSize / pageSize = page := Nat.mul_div_cancel _ (by decide)
  by_cases gone : page ∈ pages.map fun p => p / pageSize
  · rw [if_pos gone]
    unfold heldFrame
    rw [unmapped.gone _ (number.symm ▸ gone)]
    cases s.pages.entryOf (page * pageSize) with
    | none => rfl
    | some e =>
        change (if entryPresent (e &&& Word32.not pagePresent) then _ else _) = none
        rw [entryPresent_clear]
        rfl
  · rw [if_neg gone]
    unfold heldFrame
    rw [unmapped.others _ (number.symm ▸ gone)]

/-- A present page holds its frame. -/
theorem held_of_mapped {p : ℕ} (present : PageLayer.mapped s.pages p = true) :
    heldFrame s.pages (p / pageSize) = some (frameOf s p) := by
  obtain ⟨e, there, entry⟩ := PageTables.mapped_iff.mp present
  refine heldFrame_eq_some.mpr ⟨e, there, entry, ?_⟩
  unfold frameOf
  rw [there]
  rfl

/-- **`kfree` gives back the frames of the pages it releases**, if the heap does not end
between two pages. -/
theorem Released.ledger (released : Released H nodes c s M news pages s')
    (memory : KernelMemory s H nodes) (inside : pages ≠ [] → H.stop % pageSize ≠ 0)
    (sound : (ledgerOf s nodes).Sound (HeapPage H)) :
    (ledgerOf s' (news ++ nodes)).Sound (HeapPage M) ∧
      ∀ u, (ledgerOf s nodes).Fresh u → (ledgerOf s' (news ++ nodes)).Fresh u := by
  have first := released.first
  have low := M.first_le_stop
  have own : ∀ p ∈ pages, p % pageSize = 0 ∧ H.first < p ∧ p < H.stop := by
    intro p member
    have nonempty : pages ≠ [] := List.ne_nil_of_mem member
    obtain ⟨multiple, lower, upper⟩ := mem_startsBetween.mp
      ((released.range.resolve_left nonempty).mem_iff.mp member)
    refine ⟨multiple, by omega, Nat.lt_of_le_of_ne (Nat.lt_succ_iff.mp upper) ?_⟩
    rintro rfl
    exact inside nonempty multiple
  have start : ∀ p ∈ pages, p / pageSize * pageSize = p := fun p member =>
    Nat.div_mul_cancel (Nat.dvd_of_mod_eq_zero (own p member).1)
  have nodup : (pages.map fun p => p / pageSize).Nodup := by
    rcases released.range with rfl | perm
    · exact List.nodup_nil
    · exact (perm.map _).nodup_iff.mpr (startsBetween_pages_nodup _ _)
  have frames : (pages.map fun p => p / pageSize).map (fun page => frameOf s (page * pageSize)) =
      pages.map (frameOf s) := by
    rw [List.map_map]
    exact List.map_congr_left fun p member => congrArg (frameOf s) (start p member)
  obtain ⟨all, keeps⟩ := sound.giveBackAll (fun page => frameOf s (page * pageSize))
    (pages.map fun p => p / pageSize) nodup
    (by
      intro page member
      obtain ⟨p, listed, rfl⟩ := List.mem_map.mp member
      obtain ⟨-, lower, upper⟩ := own p listed
      unfold HeapPage
      rw [start p listed]
      exact ⟨lower, upper⟩)
    (by
      intro page member
      obtain ⟨p, listed, rfl⟩ := List.mem_map.mp member
      obtain ⟨multiple, lower, upper⟩ := own p listed
      rw [start p listed]
      exact held_of_mapped (memory.present p multiple ((pageStart_le _).trans lower.le) upper))
  have spare : (ledgerOf s' (news ++ nodes)).spare = ((ledgerOf s nodes).giveBackAll
      (pages.map fun p => p / pageSize) fun page => frameOf s (page * pageSize)).spare := by
    change (news ++ nodes).map s'.mem = (List.map _ _).reverse ++ nodes.map s.mem
    rw [frames, List.map_append, released.frames]
    exact congrArg _ (List.map_congr_left released.others)
  have held : (ledgerOf s' (news ++ nodes)).held = ((ledgerOf s nodes).giveBackAll
      (pages.map fun p => p / pageSize) fun page => frameOf s (page * pageSize)).held :=
    released.unmapped.held
  have issued : ∀ u, (ledgerOf s' (news ++ nodes)).issued u → ((ledgerOf s nodes).giveBackAll
      (pages.map fun p => p / pageSize) fun page => frameOf s (page * pageSize)).issued u := by
    intro u here
    obtain ⟨es, logEq, releases⟩ := released.log
    change u ∈ outstanding s'.log at here
    rw [logEq] at here
    change u ∉ List.map _ (List.map _ _) ∧ u ∈ outstanding s.log
    rw [frames]
    exact outstanding_of_releases releases here
  have next : (ledgerOf s' (news ++ nodes)).next = (ledgerOf s nodes).next := released.unmapped.bump
  refine ⟨all.mono spare next held issued fun page heap => ?_,
    fun u fresh => (keeps u fresh).mono spare next held issued⟩
  exact ⟨first ▸ heap.1, heap.2.trans_le released.stop⟩

/-- **After `kfree`** no frame is owned twice. -/
theorem Released.owned (released : Released H nodes c s M news pages s')
    (memory : KernelMemory s H nodes) (inside : pages ≠ [] → H.stop % pageSize ≠ 0)
    (owned : Owned (HeapPage H) s nodes) : Owned (HeapPage M) s' (news ++ nodes) := by
  refine ⟨(released.ledger memory inside owned.ledger).1, ?_, fun n member => ?_, ?_⟩
  · rw [released.unmapped.bump]
    exact owned.next
  · rcases List.mem_append.mp member with new | old
    · have noted : s'.mem n ∈ (pages.map (frameOf s)).reverse :=
        released.frames ▸ List.mem_map_of_mem new
      obtain ⟨p, -, same⟩ := List.mem_map.mp (List.mem_reverse.mp noted)
      rw [← same]
      exact isFrame_mask _
    · rw [released.others n old]
      exact owned.listed n old
  · obtain ⟨es, logEq, releases⟩ := released.log
    rw [logEq]
    exact (handsOutFree_of_no_new releases.noNew).mpr owned.handsOut

end Release

/-! ## Steps and runs -/

/-- The free list has room for the nodes `kfree` of the block needs, and if the block ends
up at the end of the heap, the heap does not end between two pages. -/
def SafeFree (s : Sys PageTables) (c : Chunk) : Prop :=
  ∀ H nodes before post, KernelMemory s H nodes → H.chunks = before.reverse ++ c :: post →
    NodesFit H before c post ∧ ((absorbNext c post).2 = [] → H.stop % pageSize ≠ 0)

theorem SafeFree.room {s : Sys PageTables} {c : Chunk} (safe : SafeFree s c) : NodesRoom s c :=
  fun H nodes before post memory split => (safe H nodes before post memory split).1

/-- The kernel memory is well formed and no frame is owned twice. -/
structure OwnedClient (w : Client PageTables) (H : Heap) (nodes : List ℕ) : Prop where
  client : KernelClient w H nodes
  owned : NextKept w.sys.log → Owned (HeapPage H) w.sys nodes

section Steps

variable {s s' : Sys PageTables} {H M : Heap} {nodes news pages rest : List ℕ} {sole : ℕ → Prop}
  {live : List Chunk} {c : Chunk} {u n : ℕ} {w w' : Client PageTables}

/-- The frame `page_new` is about to return is in nobody's hands. -/
theorem Owned.handOut (owned : Owned sole s nodes) (fresh : (ledgerOf s nodes).Fresh u) :
    Owned sole { s with log := .pageNew u s.pages :: s.log } nodes := by
  refine ⟨(owned.ledger.issue fresh).mono rfl rfl rfl (fun w here => ?_) fun _ => id, owned.next,
    owned.listed, ⟨fresh.unheld, fresh.unissued⟩, owned.handsOut⟩
  exact List.mem_cons.mp here

/-- A popped node leaves the list. -/
theorem Owned.pop (owned : Owned sole s (n :: rest)) :
    Owned sole (s.popped n) rest ∧ (ledgerOf (s.popped n) rest).Fresh (s.mem n) := by
  obtain ⟨sound, fresh⟩ := owned.takeNode
  exact ⟨⟨sound, owned.next, fun m member => owned.listed m (List.mem_cons_of_mem _ member),
    owned.handsOut⟩, fresh⟩

/-- **One step.** -/
theorem KernelStep.owned (inv : OwnedClient w H nodes) (step : KernelStep SafeFree w w') :
    ∃ M nodes', OwnedClient w' M nodes' := by
  cases step with
  | alloc writes pages aligned suffices_ returned =>
      obtain ⟨client₁, accessed₁⟩ := inv.client.writes writes pages
      have owned₁ := fun kept => (inv.owned kept).accessed accessed₁ fun _ => id
      rw [← writes.log] at owned₁
      have notEight := not_eight_of_returned client₁.memory aligned suffices_ returned
      rcases client₁.memory.alloc_cases aligned suffices_ notEight with
        ⟨-, v, t, M, runs, memory, found, accessed⟩ | extends_
      · cases (runs _).symm.trans returned
        refine ⟨M, nodes, client₁.found found memory, fun kept => ?_⟩
        obtain ⟨es, logEq, -⟩ := accessed.log
        refine (owned₁ (NextKept.before es (logEq ▸ kept))).accessed accessed fun page heap => ?_
        unfold HeapPage at heap ⊢
        rw [found.first, found.stop] at heap
        exact heap
      · have start : ∀ all : List ℕ, ∀ page, LoopPage H all all page → HeapPage H page :=
          fun all page loop => loop.resolve_right fun both => both.2 both.1
        obtain ⟨s', M, popped, rest, runs, grown, memory, final⟩ :=
          extends_ _ (loopOwned_keeps H _) fun kept => (owned₁ kept).mono (start _)
        cases (runs _).symm.trans returned
        refine ⟨M, rest, client₁.grown grown memory, fun kept => (final kept).mono ?_⟩
        rintro page ⟨lower, upper⟩
        rw [grown.heaps.first] at lower
        rw [grown.heaps.stop] at upper
        by_cases old : page * pageSize < H.stop
        · exact Or.inl ⟨lower, old⟩
        · -- a page behind the old end starts in the new block
          refine Or.inr ⟨List.mem_map.mpr ⟨page * pageSize, mem_startsBetween.mpr
            ⟨Nat.mul_mod_left _ _, ?_, upper⟩, Nat.mul_div_cancel _ (by decide)⟩,
            List.not_mem_nil⟩
          by_contra below
          exact old (aligned.near (Nat.mul_mod_left _ _) (Nat.lt_of_not_le below))
  | free writes pages member admitted returned =>
      obtain ⟨client₁, accessed₁⟩ := inv.client.writes writes pages
      obtain ⟨before, post, split⟩ := (client₁.block member).live.split
      obtain ⟨fits, inside⟩ := admitted H nodes before post client₁.memory split
      obtain ⟨M, news, pages', s', runs, released, none⟩ :=
        client₁.memory.kfree_fits (client₁.block member) split fits
      cases (runs _).symm.trans returned
      refine ⟨M, news ++ nodes, client₁.released member released, fun kept => ?_⟩
      obtain ⟨es, logEq, -⟩ := released.log
      have keptS := NextKept.before es (logEq ▸ kept)
      rw [writes.log] at keptS
      refine released.owned client₁.memory (fun some => inside ?_)
        ((inv.owned keptS).accessed accessed₁ fun _ => id)
      by_contra more
      exact some (none more)
  | page writes pages admitted returned =>
      obtain ⟨client₁, accessed₁⟩ := inv.client.writes writes pages
      have owned₁ := fun kept => (inv.owned kept).accessed accessed₁ fun _ => id
      rw [← writes.log] at owned₁
      cases nodes with
      | nil =>
          obtain ⟨runs, memory⟩ := client₁.memory.bump
          cases (runs _).symm.trans returned
          refine ⟨H, [], ⟨memory, client₁.live⟩, fun kept => ?_⟩
          exact ((newPage_bumped _ H).owned rfl (owned₁ (NextKept.before [_] kept))
            (kept _ _ List.mem_cons_self)).1
      | cons n rest =>
          obtain ⟨popped, head, nonnull, run⟩ := client₁.pop
          rw [head] at admitted
          have block := popped.block List.mem_cons_self
          obtain ⟨before, post, split⟩ := block.live.split
          obtain ⟨fits, inside⟩ := admitted nonnull H rest before post popped.memory split
          obtain ⟨M, news, pages', s', runs, released, none⟩ :=
            popped.memory.kfree_fits block split fits
          have final := popped.released List.mem_cons_self released
          rw [List.erase_cons_head] at final
          rw [run] at returned
          cases (Prog.bind_of_ok (runs _)).symm.trans returned
          refine ⟨M, news ++ rest, ⟨final.memory.congr rfl rfl rfl final.memory.heap.list
            fun _ => id, final.live⟩, fun kept => ?_⟩
          obtain ⟨es, logEq, -⟩ := released.log
          have keptT := NextKept.before es (logEq ▸ NextKept.before [_] kept)
          obtain ⟨owned, fresh⟩ := (owned₁ (NextKept.before [_, _] keptT)).pop
          have end_ : pages' ≠ [] → H.stop % pageSize ≠ 0 := by
            intro some
            refine inside ?_
            by_contra more
            exact some (none more)
          exact (released.owned popped.memory end_ owned).handOut
            ((released.ledger popped.memory end_ owned.ledger).2 _ fresh)

/-- **Every run.** -/
theorem ownedClient_of_run (inv : OwnedClient w H nodes)
    (run : Relation.ReflTransGen (KernelStep SafeFree) w w') :
    ∃ M nodes', OwnedClient w' M nodes' := by
  induction run with
  | refl => exact ⟨H, nodes, inv⟩
  | tail _ step ih =>
      obtain ⟨M, nodes', inv'⟩ := ih
      exact step.owned inv'

end Steps

/-- **No physical page is owned twice**: the frames on `page_free_list` are distinct, none
is the frame of a present entry or lies at or above `kernel_heap_end_pma`, and every
frame `page_new` returned was that of no present entry and in nobody's hands. -/
structure OwnedOnce (s : Sys PageTables) (nodes : List ℕ) : Prop where
  list : PageNodes s nodes
  distinct : (nodes.map s.mem).Nodup
  unmapped : ∀ pma ∈ nodes.map s.mem, ∀ v e, s.pages.entryOf v = some e →
    entryPresent e = true → e &&& Word32.not 0xfff ≠ pma
  below : ∀ pma ∈ nodes.map s.mem, pma < s.pages.heapEndPma
  handsOut : HandsOutFree s.log

theorem OwnedClient.once {w : Client PageTables} {H : Heap} {nodes : List ℕ}
    (inv : OwnedClient w H nodes) (kept : NextKept w.sys.log) : OwnedOnce w.sys nodes := by
  have owned := inv.owned kept
  refine ⟨inv.client.memory.heap.list, owned.ledger.distinct, fun pma listed v e there present
    same => ?_, owned.ledger.spareBelow, owned.handsOut⟩
  exact owned.ledger.unheld pma listed (v / pageSize)
    (heldFrame_eq_some.mpr ⟨e, there, present, same⟩)

end TrashOS
