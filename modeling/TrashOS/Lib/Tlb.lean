import Mathlib.Logic.Function.Basic
import Mathlib.Logic.Relation

/-!
# Translation caches

A translation cache holds for some pages a translation that the page tables gave
at an earlier time.  Page tables enter only as the map `tables` from pages to
their current translation, `none` for a page that is not present.

The processor fills the cache from the current tables and evicts from it whenever
it likes (`CpuStep`).  Software changes the tables and drops single pages.  What
software has to keep track of is the set of *stale* pages, those that may be
cached with a translation which is no longer current: a change of the tables adds
to it (`afterChange`), dropping a page takes it out (`afterDrop`), and nothing the
processor does matters.
-/

namespace Tlb

variable {Page Entry : Type*}

/-- **Coherence outside the pages `stale`**: a cached translation is the current
one. -/
def CoherentOff (stale : Page → Prop) (tables cache : Page → Option Entry) : Prop :=
  ∀ p e, ¬ stale p → cache p = some e → tables p = some e

/-- **Coherence.**  Every cached translation is the current one. -/
def Coherent (tables cache : Page → Option Entry) : Prop :=
  ∀ p e, cache p = some e → tables p = some e

/-- The stale pages after the tables changed. -/
def afterChange (tables tables' : Page → Option Entry) (stale : Page → Prop) (p : Page) : Prop :=
  stale p ∨ ∃ e, tables p = some e ∧ tables' p ≠ some e

/-- The stale pages after one was dropped. -/
def afterDrop (q : Page) (stale : Page → Prop) (p : Page) : Prop := stale p ∧ p ≠ q

variable {stale : Page → Prop} {tables tables' cache cache' : Page → Option Entry}

theorem coherentOff_iff (none : ∀ p, ¬ stale p) :
    CoherentOff stale tables cache ↔ Coherent tables cache :=
  ⟨fun off p e cached => off p e (none p) cached, fun coherent p e _ cached => coherent p e cached⟩

theorem CoherentOff.change (off : CoherentOff stale tables cache)
    (tables' : Page → Option Entry) :
    CoherentOff (afterChange tables tables' stale) tables' cache := by
  intro p e fresh cached
  have before : tables p = some e := off p e (fun was => fresh (Or.inl was)) cached
  by_contra changed
  exact fresh (Or.inr ⟨e, before, changed⟩)

section Cache

variable [DecidableEq Page]

/-- What the processor does on its own. -/
inductive CpuStep (tables : Page → Option Entry) :
    (Page → Option Entry) → (Page → Option Entry) → Prop
  | fill {cache : Page → Option Entry} {p : Page} {e : Entry} (present : tables p = some e) :
      CpuStep tables cache (Function.update cache p (some e))
  | evict {cache : Page → Option Entry} (p : Page) :
      CpuStep tables cache (Function.update cache p none)

/-- Any number of fills and evictions. -/
abbrev CpuRun (tables : Page → Option Entry) :
    (Page → Option Entry) → (Page → Option Entry) → Prop :=
  Relation.ReflTransGen (CpuStep tables)

/-- The entry of a page is dropped. -/
def drop (q : Page) (cache : Page → Option Entry) : Page → Option Entry :=
  Function.update cache q none

theorem CoherentOff.cpuStep (off : CoherentOff stale tables cache)
    (step : CpuStep tables cache cache') : CoherentOff stale tables cache' := by
  intro p e fresh cached
  cases step with
  | @fill q _ present =>
      by_cases here : p = q
      · subst here
        rw [Function.update_self] at cached
        rw [present, cached]
      · rw [Function.update_of_ne here] at cached
        exact off p e fresh cached
  | evict q =>
      by_cases here : p = q
      · subst here
        rw [Function.update_self] at cached
        cases cached
      · rw [Function.update_of_ne here] at cached
        exact off p e fresh cached

/-- The processor brings in nothing stale. -/
theorem CoherentOff.cpu (off : CoherentOff stale tables cache) (run : CpuRun tables cache cache') :
    CoherentOff stale tables cache' := by
  induction run with
  | refl => exact off
  | tail _ step ih => exact ih.cpuStep step

theorem CoherentOff.drop (off : CoherentOff stale tables cache) (q : Page) :
    CoherentOff (afterDrop q stale) tables (Tlb.drop q cache) := by
  intro p e fresh cached
  by_cases here : p = q
  · subst here
    unfold Tlb.drop at cached
    rw [Function.update_self] at cached
    cases cached
  · unfold Tlb.drop at cached
    rw [Function.update_of_ne here] at cached
    exact off p e (fun was => fresh ⟨was, here⟩) cached

end Cache

end Tlb
