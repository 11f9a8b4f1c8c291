import Mathlib.Data.Option.Basic
import Mathlib.Data.List.Basic
import Mathlib.Order.Interval.Finset.Nat

/-!
# Address maps made of segments

A `Segment` sends a range of addresses to a range of the same size and gives all of it
the same attributes.  A list of segments is read from the front: `translate segs v` is
what the first segment that contains `v` says.  When no two segments meet, the order
does not matter (`translate_eq_some`).

`regions n segs` are the blocks of `n` addresses the segments touch, which is what a
table with one entry for each block has to have.
-/

/-- The addresses from `start` on, sent to those from `target` on. -/
@[ext]
structure Segment (α : Type*) where
  start : ℕ
  size : ℕ
  target : ℕ
  attr : α

namespace Segment

variable {α : Type*} {seg : Segment α} {segs later : List (Segment α)} {v n k : ℕ}
  {x : ℕ × α}

/-- `v` is in the range. -/
def Contains (seg : Segment α) (v : ℕ) : Prop := seg.start ≤ v ∧ v < seg.start + seg.size

instance (seg : Segment α) (v : ℕ) : Decidable (seg.Contains v) :=
  inferInstanceAs (Decidable (_ ∧ _))

/-- Where the segment sends `v`, and how. -/
def image (seg : Segment α) (v : ℕ) : ℕ × α := (seg.target + (v - seg.start), seg.attr)

/-- No address is in both. -/
def Apart (seg seg' : Segment α) : Prop := ∀ v, seg.Contains v → ¬ seg'.Contains v

/-- One ends before the other starts. -/
theorem apart_of {start size target start' size' target' : ℕ} {attr attr' : α}
    (ordered : start + size ≤ start' ∨ start' + size' ≤ start) :
    Apart (⟨start, size, target, attr⟩ : Segment α) ⟨start', size', target', attr'⟩ := by
  rintro v ⟨lower, upper⟩ ⟨lower', upper'⟩
  dsimp only at *
  omega

/-- The first segment with `v` in it says where `v` goes. -/
def translate (segs : List (Segment α)) (v : ℕ) : Option (ℕ × α) :=
  (segs.find? fun seg => seg.Contains v).map fun seg => seg.image v

@[simp] theorem translate_nil (v : ℕ) : translate ([] : List (Segment α)) v = none := rfl

theorem translate_append (segs later : List (Segment α)) (v : ℕ) :
    translate (segs ++ later) v = (translate segs v).or (translate later v) := by
  unfold translate
  rw [List.find?_append, Option.map_or]

theorem translate_singleton (seg : Segment α) (v : ℕ) :
    translate [seg] v = if seg.Contains v then some (seg.image v) else none := by
  unfold translate
  by_cases inside : seg.Contains v
  · rw [if_pos inside, List.find?_cons, decide_eq_true inside]
    rfl
  · rw [if_neg inside, List.find?_cons, decide_eq_false inside]
    rfl

theorem translate_cons (seg : Segment α) (segs : List (Segment α)) (v : ℕ) :
    translate (seg :: segs) v =
      if seg.Contains v then some (seg.image v) else translate segs v := by
  rw [← List.singleton_append, translate_append, translate_singleton]
  split <;> rfl

theorem translate_eq_none : translate segs v = none ↔ ∀ seg ∈ segs, ¬ seg.Contains v := by
  unfold translate
  rw [Option.map_eq_none_iff, List.find?_eq_none]
  simp only [decide_eq_true_eq]

/-- A segment that answers. -/
theorem exists_of_translate (translated : translate segs v = some x) :
    ∃ seg ∈ segs, seg.Contains v ∧ seg.image v = x := by
  obtain ⟨seg, found, rfl⟩ := Option.map_eq_some_iff.mp translated
  have inside := List.find?_some found
  exact ⟨seg, List.mem_of_find?_eq_some found, of_decide_eq_true inside, rfl⟩

/-- **The order of the segments does not matter** when no two of them meet. -/
theorem translate_eq_some (apart : segs.Pairwise Apart) :
    translate segs v = some x ↔ ∃ seg ∈ segs, seg.Contains v ∧ seg.image v = x := by
  refine ⟨exists_of_translate, ?_⟩
  rintro ⟨seg, member, inside, rfl⟩
  obtain ⟨front, back, rfl⟩ := List.append_of_mem member
  have none : translate front v = none :=
    translate_eq_none.mpr fun seg' member' inside' =>
      (List.pairwise_append.mp apart).2.2 seg' member' seg List.mem_cons_self v inside' inside
  have first : translate (seg :: back) v = some (seg.image v) := by
    rw [← List.singleton_append, translate_append, translate_singleton, if_pos inside]
    rfl
  rw [translate_append, none, first]
  rfl

/-- Segments of whole blocks send a block to a block. -/
theorem translate_block (pos : 0 < n) (whole : ∀ seg ∈ segs, n ∣ seg.start ∧ n ∣ seg.size) :
    translate segs v = (translate segs (v / n * n)).map fun x => (x.1 + v % n, x.2) := by
  have split : v / n * n + v % n = v := Nat.div_add_mod' v n
  induction segs with
  | nil => rfl
  | cons seg segs ih =>
      obtain ⟨⟨p, start⟩, q, size⟩ := whole seg List.mem_cons_self
      have lower : seg.start ≤ v ↔ seg.start ≤ v / n * n := by
        rw [start, Nat.mul_comm n p, Nat.mul_le_mul_right_iff pos, Nat.le_div_iff_mul_le pos]
      have upper : v < seg.start + seg.size ↔ v / n * n < seg.start + seg.size := by
        rw [start, size, ← Nat.mul_add, Nat.mul_comm n (p + q), Nat.mul_lt_mul_right pos,
          Nat.div_lt_iff_lt_mul pos]
      have contains : seg.Contains v ↔ seg.Contains (v / n * n) := and_congr lower upper
      rw [translate_cons, translate_cons, ih fun seg' member =>
        whole seg' (List.mem_cons_of_mem _ member)]
      by_cases inside : seg.Contains v
      · rw [if_pos inside, if_pos (contains.mp inside)]
        have below := (contains.mp inside).1
        refine congrArg some (Prod.ext ?_ rfl)
        unfold image
        dsimp only
        omega
      · rw [if_neg inside, if_neg (mt contains.mpr inside)]

/-! ## Growing a segment -/

/-- The first `n` addresses of a segment. -/
def take (seg : Segment α) (n : ℕ) : Segment α := { seg with size := n }

@[simp] theorem take_start : (seg.take n).start = seg.start := rfl

theorem take_image : (seg.take n).image v = seg.image v := rfl

theorem take_contains : (seg.take n).Contains v ↔ seg.start ≤ v ∧ v < seg.start + n := Iff.rfl

@[simp] theorem take_size : seg.take seg.size = seg := rfl

/-- A segment without addresses says nothing. -/
theorem translate_take_zero (segs : List (Segment α)) (seg : Segment α) (v : ℕ) :
    translate (segs ++ [seg.take 0]) v = translate segs v := by
  have empty : ¬ (seg.take 0).Contains v := by
    rw [take_contains]
    omega
  rw [translate_append, translate_singleton, if_neg empty, Option.or_none]

/-- An address of the segment that no other one has. -/
theorem translate_take_of_contains (none : translate segs v = none)
    (inside : (seg.take n).Contains v) :
    translate (segs ++ [seg.take n]) v = some (seg.image v) := by
  rw [translate_append, none, translate_singleton, if_pos inside]
  rfl

/-- Outside the new part the larger segment says what the smaller one says. -/
theorem translate_take_congr
    (same : (seg.take n).Contains v ↔ (seg.take k).Contains v) :
    translate (segs ++ [seg.take n]) v = translate (segs ++ [seg.take k]) v := by
  rw [translate_append, translate_append, translate_singleton, translate_singleton, take_image,
    take_image]
  exact congrArg _ (if_congr same rfl rfl)

/-! ## Regions -/

/-- The blocks of `n` addresses a segment touches. -/
def touched (n : ℕ) (seg : Segment α) : Finset ℕ :=
  if seg.size = 0 then ∅ else Finset.Icc (seg.start / n) ((seg.start + seg.size - 1) / n)

/-- The blocks of `n` addresses the segments touch. -/
def regions (n : ℕ) (segs : List (Segment α)) : Finset ℕ :=
  segs.foldr (fun seg rest => touched n seg ∪ rest) ∅

theorem mem_touched (pos : 0 < n) :
    k ∈ touched n seg ↔ ∃ v, seg.Contains v ∧ v / n = k := by
  unfold touched Contains
  by_cases empty : seg.size = 0
  · rw [if_pos empty]
    constructor
    · intro none
      exact absurd none (Finset.notMem_empty k)
    · rintro ⟨v, inside, -⟩
      omega
  · rw [if_neg empty, Finset.mem_Icc]
    constructor
    · rintro ⟨lower, upper⟩
      -- The region's own start, or that of the segment.
      refine ⟨max seg.start (k * n), ⟨le_max_left _ _, max_lt (by omega) ?_⟩, ?_⟩
      · have := (Nat.le_div_iff_mul_le pos).mp upper
        omega
      · rcases le_total seg.start (k * n) with below | above
        · rw [max_eq_right below, Nat.mul_div_cancel _ pos]
        · rw [max_eq_left above]
          exact le_antisymm lower ((Nat.le_div_iff_mul_le pos).mpr above)
    · rintro ⟨v, ⟨lower, upper⟩, rfl⟩
      exact ⟨Nat.div_le_div_right lower, Nat.div_le_div_right (by omega)⟩

theorem mem_regions (pos : 0 < n) :
    k ∈ regions n segs ↔ ∃ seg ∈ segs, ∃ v, seg.Contains v ∧ v / n = k := by
  induction segs with
  | nil =>
      constructor
      · intro none
        exact absurd none (Finset.notMem_empty k)
      · rintro ⟨seg, member, -⟩
        exact absurd member List.not_mem_nil
  | cons seg segs ih =>
      change k ∈ touched n seg ∪ regions n segs ↔ _
      rw [Finset.mem_union, mem_touched pos, ih, List.exists_mem_cons_iff]

end Segment
