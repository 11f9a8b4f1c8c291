import TrashOS.Page.Layer

/-!
# What a call does to the page tables

Most of the allocator does not work on page tables at all (`Still`).  The rest
changes them by writing single entries, and all it writes is in the trace:
`Traced` says that replaying the trace of a call on the tables before it gives
the tables after it.  Both are closed under the constructs of the code, so the
proofs below follow the text of the functions; nothing is assumed about the state
they run in.
-/

namespace TrashOS

/-! ## Code that leaves the page layer alone -/

section Still

variable {π : Type}

/-- The page layer is the same. -/
def SamePages (s s' : Sys π) : Prop := s'.pages = s.pages

instance : Std.Refl (SamePages (π := π)) := ⟨fun _ => rfl⟩

instance : IsTrans (Sys π) SamePages := ⟨fun _ _ _ first second => Eq.trans second first⟩

/-- Code that leaves the page layer alone. -/
def Still {α : Type} (m : KM π α) : Prop := Prog.Follows SamePages m

namespace Still

variable {α β : Type} {m m' : KM π α} {f : α → KM π β}

theorem pure (a : α) : Still (Pure.pure a : KM π α) := Prog.Follows.pure a

theorem stop (e : Stop) : Still (Prog.stop e : KM π α) := Prog.Follows.stop e

theorem bind (first : Still m) (second : ∀ a, Still (f a)) : Still (m >>= f) :=
  Prog.Follows.bind first second

theorem ite {c : Prop} [Decidable c] (yes : Still m) (no : Still m') :
    Still (if c then m else m') :=
  Prog.Follows.ite yes no

theorem getFreeList : Still (TrashOS.getFreeList (π := π)) := by
  intro s a s' returned
  cases returned
  rfl

theorem setFreeList (node : ℕ) : Still (TrashOS.setFreeList (π := π) node) := by
  intro s a s' returned
  cases returned
  rfl

theorem getEnd : Still (TrashOS.getEnd (π := π)) := by
  intro s a s' returned
  cases returned
  rfl

theorem setEnd (vma : ℕ) : Still (TrashOS.setEnd (π := π) vma) := by
  intro s a s' returned
  cases returned
  rfl

theorem record (e : Event π) : Still (TrashOS.record e) := by
  intro s a s' returned
  cases returned
  rfl

variable [PageLayer π]

theorem load (a : ℕ) : Still (TrashOS.load (π := π) a) := by
  intro s v s' returned
  cases returned
  rfl

theorem store (a v : ℕ) : Still (TrashOS.store (π := π) a v) := by
  intro s u s' returned
  cases returned
  rfl

theorem allocGetSize (node : ℕ) : Still (TrashOS.allocGetSize (π := π) node) :=
  .bind (.load _) fun _ => .pure _

theorem allocGetSizePrev (node : ℕ) : Still (TrashOS.allocGetSizePrev (π := π) node) :=
  .bind (.load _) fun _ => .pure _

theorem allocGetNextDesc (node : ℕ) : Still (TrashOS.allocGetNextDesc (π := π) node) :=
  .bind (.allocGetSize _) fun _ => .pure _

theorem allocGetSizeNext (node : ℕ) : Still (TrashOS.allocGetSizeNext (π := π) node) :=
  .bind (.allocGetNextDesc _) fun _ => .bind (.load _) fun _ => .pure _

theorem allocGetPrevDesc (node : ℕ) : Still (TrashOS.allocGetPrevDesc (π := π) node) :=
  .bind (.allocGetSizePrev _) fun _ => .pure _

theorem relinkNext (prev next : ℕ) : Still (TrashOS.relinkNext (π := π) prev next) :=
  .ite (.store _ _) (.setFreeList _)

theorem relinkPrev (next prev : ℕ) : Still (TrashOS.relinkPrev (π := π) next prev) :=
  .ite (.store _ _) (.pure _)

theorem allocNodeUnlink (node : ℕ) : Still (TrashOS.allocNodeUnlink (π := π) node) :=
  .bind (.load _) fun _ => .bind (.load _) fun _ => .bind (.relinkNext _ _) fun _ =>
    .bind (.load _) fun _ => .bind (.load _) fun _ => .relinkPrev _ _

theorem allocNodeAdd (node : ℕ) : Still (TrashOS.allocNodeAdd (π := π) node) :=
  .bind (.store _ _) fun _ => .bind .getFreeList fun _ => .bind (.store _ _) fun _ =>
    .bind (.relinkPrev _ _) fun _ => .setFreeList _

theorem allocClearFree (vma : ℕ) : Still (TrashOS.allocClearFree (π := π) vma) :=
  .bind (.load _) fun _ => .bind (.store _ _) fun _ => .bind (.allocGetNextDesc _) fun _ =>
    .bind (.load _) fun _ => .store _ _

theorem allocSetFree (vma : ℕ) : Still (TrashOS.allocSetFree (π := π) vma) :=
  .bind (.load _) fun _ => .bind (.store _ _) fun _ => .bind (.allocGetNextDesc _) fun _ =>
    .bind (.load _) fun _ => .store _ _

theorem allocSplit (bytes n : ℕ) : Still (TrashOS.allocSplit (π := π) bytes n) :=
  .bind (.store _ _) fun _ => .bind (.load _) fun _ => .bind (.store _ _) fun _ =>
    .bind (.load _) fun _ => .bind (.store _ _) fun _ => .bind (.allocGetNextDesc _) fun _ =>
    .bind (.load _) fun _ => .bind (.store _ _) fun _ => .bind (.store _ _) fun _ =>
    .bind (.load _) fun _ => .bind (.load _) fun _ => .bind (.store _ _) fun _ =>
    .bind (.store _ _) fun _ => .bind (.load _) fun _ => .bind (.relinkNext _ _) fun _ =>
    .bind (.load _) fun _ => .relinkPrev _ _

theorem allocSearch (bytes : ℕ) :
    ∀ fuel n, Still (TrashOS.allocSearch (π := π) bytes fuel n)
  | 0, _ => .stop _
  | fuel + 1, _ =>
      .ite (.pure _) (.bind (.allocGetSize _) fun _ =>
        .ite (.bind (.allocNodeUnlink _) fun _ => .bind (.allocClearFree _) fun _ => .pure _)
          (.ite (.bind (.allocSplit _ _) fun _ => .pure _)
            (.bind (.load _) fun _ => allocSearch bytes fuel _)))

theorem allocPad (alignment : ℕ) : Still (TrashOS.allocPad (π := π) alignment) :=
  .bind .getEnd fun _ => .ite (.ite (.stop _) (.bind (.store _ _) fun _ =>
    .bind (.load _) fun _ => .bind (.store _ _) fun _ => .bind (.allocGetNextDesc _) fun _ =>
    .bind (.load _) fun _ => .bind (.store _ _) fun _ => .bind (.allocNodeAdd _) fun _ =>
    .setEnd _)) (.pure _)

theorem allocFinish (vma bytes : ℕ) : Still (TrashOS.allocFinish (π := π) vma bytes) :=
  .bind (.store _ _) fun _ => .bind (.allocGetNextDesc _) fun _ =>
    .bind (.store _ _) fun _ => .store _ _

theorem freeMergeNext (chunkNext vma : ℕ) : Still (TrashOS.freeMergeNext (π := π) chunkNext vma) :=
  .bind (.load _) fun _ => .ite (.bind (.allocNodeUnlink _) fun _ => .bind (.load _) fun _ =>
    .bind (.allocGetSizeNext _) fun _ => .bind (.store _ _) fun _ =>
    .bind (.allocGetNextDesc _) fun _ => .bind (.load _) fun _ => .store _ _) (.pure _)

theorem freeMergePrev (chunkPrev vma : ℕ) : Still (TrashOS.freeMergePrev (π := π) chunkPrev vma) :=
  .bind (.load _) fun _ => .ite (.bind (.allocNodeUnlink _) fun _ =>
    .bind (.allocGetSizePrev _) fun _ => .bind (.allocGetSize _) fun _ =>
    .bind (.store _ _) fun _ => .bind (.allocGetNextDesc _) fun _ => .bind (.load _) fun _ =>
    .bind (.store _ _) fun _ => .pure _) (.pure _)

end Still

end Still

/-! ## Replaying a trace -/

/-- The tables after an event. -/
def TableEvent.apply : TableEvent → PageTables → PageTables
  | .write vma entry, pt => pt.write vma entry
  | .invlpg vma, pt => { pt with trace := .invlpg vma :: pt.trace }

/-- The tables after a list of events, the first one first. -/
def replay (pt : PageTables) (events : List TableEvent) : PageTables :=
  events.foldl (fun pt e => e.apply pt) pt

theorem replay_append (pt : PageTables) (es es' : List TableEvent) :
    replay pt (es ++ es') = replay (replay pt es) es' :=
  List.foldl_append

/-- The tables depend on the tables only. -/
theorem replay_table {pt pt' : PageTables} (same : pt'.table = pt.table)
    (events : List TableEvent) : (replay pt' events).table = (replay pt events).table := by
  induction events generalizing pt pt' with
  | nil => exact same
  | cons e events ih =>
      refine ih ?_
      cases e with
      | write vma entry =>
          change Function.update pt'.table _ _ = Function.update pt.table _ _
          rw [same]
      | invlpg vma => exact same

theorem replay_dir (pt : PageTables) (events : List TableEvent) :
    (replay pt events).dir = pt.dir := by
  induction events generalizing pt with
  | nil => rfl
  | cons e events ih =>
      refine (ih _).trans ?_
      cases e with
      | write vma entry => rfl
      | invlpg vma => rfl

theorem replay_trace (pt : PageTables) (events : List TableEvent) :
    (replay pt events).trace = events.reverse ++ pt.trace := by
  induction events generalizing pt with
  | nil => rfl
  | cons e events ih =>
      refine (ih _).trans ?_
      rw [List.reverse_cons, List.append_assoc]
      cases e with
      | write vma entry => rfl
      | invlpg vma => rfl

/-- `events` is what was recorded on the way from `pt` to `pt'`; the directory
is the same and the tables are those the events lead to. -/
structure Records (events : List TableEvent) (pt pt' : PageTables) : Prop where
  trace : pt'.trace = events.reverse ++ pt.trace
  table : pt'.table = (replay pt events).table
  dir : pt'.dir = pt.dir

/-- All writes to page tables between `pt` and `pt'` are in the trace. -/
def TracedTables (pt pt' : PageTables) : Prop := ∃ events, Records events pt pt'

/-- The same of kernel states. -/
def TracedStep (s s' : Sys PageTables) : Prop := TracedTables s.pages s'.pages

theorem TracedTables.refl (pt : PageTables) : TracedTables pt pt := ⟨[], rfl, rfl, rfl⟩

theorem TracedTables.trans {pt pt' pt'' : PageTables} (first : TracedTables pt pt')
    (second : TracedTables pt' pt'') : TracedTables pt pt'' := by
  obtain ⟨es, trace, table, dir⟩ := first
  obtain ⟨es', trace', table', dir'⟩ := second
  refine ⟨es ++ es', ?_, ?_, dir'.trans dir⟩
  · rw [trace', trace, List.reverse_append, List.append_assoc]
  · rw [table', replay_table table, replay_append]

instance : Std.Refl TracedTables := ⟨TracedTables.refl⟩

instance : IsTrans PageTables TracedTables := ⟨fun _ _ _ => TracedTables.trans⟩

instance : Std.Refl TracedStep := ⟨fun s => TracedTables.refl s.pages⟩

instance : IsTrans (Sys PageTables) TracedStep := ⟨fun _ _ _ => TracedTables.trans⟩

/-- Code of `page.c` on single entries writes what it records. -/
def TracedPages {α : Type} (m : PageM α) : Prop := Prog.Follows TracedTables m

/-- Kernel code writes what it records. -/
def Traced {α : Type} (m : KM PageTables α) : Prop := Prog.Follows TracedStep m

namespace TracedPages

theorem pageGetPma (vma : ℕ) : TracedPages (TrashOS.pageGetPma vma) := by
  intro pt pma pt' returned
  obtain ⟨entry, -, -, rfl⟩ := pageGetPma_eq_ok.mp returned
  exact TracedTables.refl _

theorem updateEntry (vma : ℕ) (f : ℕ → ℕ) : TracedPages (TrashOS.updateEntry vma f) := by
  intro pt u pt' returned
  obtain ⟨old, -, rfl⟩ := updateEntry_eq_ok.mp returned
  exact ⟨[.write vma (f old)], rfl, rfl, rfl⟩

theorem invlpg (vma : ℕ) : TracedPages (TrashOS.invlpg vma) := by
  intro pt u pt' returned
  cases returned
  exact ⟨[.invlpg vma], rfl, rfl, rfl⟩

theorem pageRemap (vma pma : ℕ) : TracedPages (TrashOS.pageRemap vma pma) :=
  Prog.Follows.bind (updateEntry _ _) fun _ => invlpg _

theorem pageUnmap (vma : ℕ) : TracedPages (TrashOS.pageUnmap vma) :=
  Prog.Follows.bind (updateEntry _ _) fun _ => invlpg _

theorem pageDelete (vma : ℕ) : TracedPages (TrashOS.pageDelete vma) :=
  Prog.Follows.bind (updateEntry _ _) fun _ => invlpg _

theorem pageSetFlags (vma flags : ℕ) : TracedPages (TrashOS.pageSetFlags vma flags) :=
  updateEntry _ _

end TracedPages

namespace Traced

variable {α β : Type} {m m' : KM PageTables α} {f : α → KM PageTables β}

theorem of_still (still : Still m) : Traced m := by
  refine Prog.Follows.mono (fun s s' same => ?_) still
  unfold SamePages at same
  unfold TracedStep
  rw [same]
  exact TracedTables.refl _

theorem pure (a : α) : Traced (Pure.pure a : KM PageTables α) := .of_still (.pure a)

theorem stop (e : Stop) : Traced (Prog.stop e : KM PageTables α) := Prog.Follows.stop e

theorem bind (first : Traced m) (second : ∀ a, Traced (f a)) : Traced (m >>= f) :=
  Prog.Follows.bind first second

theorem ite {c : Prop} [Decidable c] (yes : Traced m) (no : Traced m') :
    Traced (if c then m else m') :=
  Prog.Follows.ite yes no

theorem load (a : ℕ) : Traced (TrashOS.load a) := .of_still (.load a)

theorem store (a v : ℕ) : Traced (TrashOS.store a v) := .of_still (.store a v)

theorem onPages {m : PageM α} (traced : TracedPages m) : Traced (TrashOS.onPages m) := by
  intro s a s' returned
  obtain ⟨pages, run, rfl⟩ := onPages_eq_ok.mp returned
  exact traced _ _ _ run

theorem pageSetEntry (vma entry : ℕ) : Traced (TrashOS.pageSetEntry vma entry) := by
  intro s u s' returned
  obtain ⟨old, -, rfl⟩ := pageSetEntry_eq_ok.mp returned
  exact ⟨[.write vma entry], rfl, rfl, rfl⟩

/-! ### The allocator -/

section Alloc

variable {getPagePma : KM PageTables ℕ} {pageFree : ℕ → KM PageTables Unit}

theorem allocMapPages (supplier : Traced getPagePma) (bound : ℕ) :
    ∀ fuel page, Traced (TrashOS.allocMapPages getPagePma bound fuel page)
  | 0, _ => .stop _
  | fuel + 1, _ =>
      .ite (.bind supplier fun _ => .bind (.pageSetEntry _ _) fun _ =>
        allocMapPages supplier bound fuel _) (.pure _)

theorem extendHeap (supplier : Traced getPagePma) (alignment bytes : ℕ) :
    Traced (TrashOS.extendHeap getPagePma alignment bytes) :=
  .bind (.of_still (.allocPad _)) fun _ => .bind (.of_still .getEnd) fun _ =>
    .bind (.of_still (.setEnd _)) fun _ => .bind (.allocMapPages supplier _ _ _) fun _ =>
    .bind (.of_still (.allocFinish _ _)) fun _ => .pure _

theorem alloc (supplier : Traced getPagePma) (alignment bytes : ℕ) :
    Traced (TrashOS.alloc getPagePma alignment bytes) := by
  refine .ite (.extendHeap supplier _ _) (.bind (.of_still .getFreeList) fun head =>
    .bind (.of_still (.allocSearch _ _ _)) fun found => ?_)
  cases found with
  | none => exact .extendHeap supplier _ _
  | some vma => exact .pure _

theorem freePages (release : ∀ v, Traced (pageFree v)) (vma : ℕ) :
    ∀ fuel page, Traced (TrashOS.freePages pageFree vma fuel page)
  | 0, _ => .stop _
  | fuel + 1, page =>
      .ite (.bind (.of_still (.record _)) fun _ => .bind (release page) fun _ =>
        freePages release vma fuel _) (.pure _)

theorem freeRelease (release : ∀ v, Traced (pageFree v)) (vma : ℕ) :
    Traced (TrashOS.freeRelease pageFree vma) :=
  .bind (.of_still (.allocGetSize _)) fun _ => .bind (.of_still .getEnd) fun _ =>
    .ite (.bind (.freePages release _ _ _) fun _ => .of_still (.setEnd _))
      (.bind (.of_still (.allocSetFree _)) fun _ => .of_still (.allocNodeAdd _))

theorem free (release : ∀ v, Traced (pageFree v)) (vma : ℕ) :
    Traced (TrashOS.free pageFree vma) :=
  .bind (.of_still (.allocGetNextDesc _)) fun _ => .bind (.of_still (.allocGetPrevDesc _)) fun _ =>
    .bind (.of_still (.freeMergeNext _ _)) fun _ => .bind (.of_still (.freeMergePrev _ _)) fun _ =>
    .freeRelease release _

end Alloc

/-! ### `page_new` and `page_free` -/

theorem getPageFreeList : Traced TrashOS.getPageFreeList := by
  intro s a s' returned
  cases returned
  exact TracedTables.refl _

theorem setPageFreeList (node : ℕ) : Traced (TrashOS.setPageFreeList node) := by
  intro s a s' returned
  cases returned
  exact ⟨[], rfl, rfl, rfl⟩

theorem recordPageNew (pma : ℕ) : Traced (TrashOS.recordPageNew pma) := by
  intro s a s' returned
  cases returned
  exact TracedTables.refl _

theorem pageNewWith {kfree : ℕ → KM PageTables Unit} (release : ∀ v, Traced (kfree v)) :
    Traced (TrashOS.pageNewWith kfree) := by
  refine .bind .getPageFreeList fun _ => .ite (.bind (.load _) fun _ => .bind (.load _) fun _ =>
    .bind (.setPageFreeList _) fun _ => .bind (release _) fun _ =>
    .bind (.recordPageNew _) fun _ => .pure _) (.bind ?_ fun _ => .bind ?_ fun _ =>
    .bind (.recordPageNew _) fun _ => .pure _)
  · intro s a s' returned
    cases returned
    exact TracedTables.refl _
  · intro s a s' returned
    cases returned
    exact ⟨[], rfl, rfl, rfl⟩

theorem pageFreeWith {kmalloc : ℕ → KM PageTables ℕ} (request : ∀ n, Traced (kmalloc n))
    (vma : ℕ) : Traced (TrashOS.pageFreeWith kmalloc vma) :=
  .bind (request _) fun _ => .bind (.onPages (.pageGetPma _)) fun _ =>
    .bind .getPageFreeList fun _ => .bind (.store _ _) fun _ => .bind (.store _ _) fun _ =>
    .bind (.onPages (.pageUnmap _)) fun _ => .bind (.setPageFreeList _) fun _ =>
    .of_still (.record _)

/-- However deep the two call each other, all writes are in the trace. -/
theorem pageLayer (depth : ℕ) :
    Traced (TrashOS.pageNew depth) ∧ ∀ v, Traced (TrashOS.pageFree depth v) := by
  induction depth with
  | zero => exact ⟨.stop _, fun _ => .stop _⟩
  | succ depth ih =>
      exact ⟨.pageNewWith fun v => .free ih.2 v,
        fun v => .pageFreeWith (fun n => .alloc ih.1 _ n) v⟩

end Traced

end TrashOS
