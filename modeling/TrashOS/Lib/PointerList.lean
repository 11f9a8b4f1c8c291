import Mathlib.Data.List.Nodup
import Mathlib.Data.List.Perm.Basic
import Mathlib.Tactic.Common

/-!
# Linked lists threaded through memory

A linked list in memory is a head pointer together with link functions giving
the `next` (and, for a doubly linked list, the `prev`) pointer stored in each
node.  This module describes such lists over an arbitrary address type `α` with
a distinguished `null`, by comparing the pointer structure with an ordinary
`List α` of node addresses.

* `Singly null next h xs` — following `next` from `h` visits exactly `xs` and
  then reaches `null`.
* `Doubly null prev next p h xs` — the same, with every `prev` pointing to the
  node before and the first one to `p`.

Both predicates determine the list (`Singly.unique`) and exclude cycles
(`Singly.nodup`), and both depend on the links of their own nodes only
(`Singly.congr`, `Doubly.congr`).  The three surgery lemmas `Doubly.unlink`,
`Doubly.replace` and `Doubly.pushFront` describe an update by its effect on the
links of the remaining nodes: *a pointer that named the old node now names the
new one*.  That form does not mention positions, so one statement covers the
head, the middle and the tail of the list.
-/

namespace PointerList

variable {α : Type*} (null : α)

/-! ## Singly linked lists -/

/-- Following `next` from `h` visits exactly `xs` and ends at `null`. -/
def Singly (next : α → α) : α → List α → Prop
  | h, [] => h = null
  | h, x :: xs => h = x ∧ x ≠ null ∧ Singly next (next x) xs

section Singly

variable {null} {next next' : α → α} {h : α} {xs ys : List α}

@[simp] theorem singly_nil : Singly null next h [] ↔ h = null := Iff.rfl

@[simp] theorem singly_cons {x : α} :
    Singly null next h (x :: xs) ↔ h = x ∧ x ≠ null ∧ Singly null next (next x) xs :=
  Iff.rfl

/-- A list only depends on the links of its own nodes. -/
theorem Singly.congr (list : Singly null next h xs)
    (same : ∀ x ∈ xs, next' x = next x) : Singly null next' h xs := by
  induction xs generalizing h with
  | nil => exact list
  | cons x xs ih =>
      obtain ⟨head, nonnull, rest⟩ := list
      refine ⟨head, nonnull, ?_⟩
      rw [same x (by simp)]
      exact ih rest (fun y member => same y (by simp [member]))

/-- The memory determines the list. -/
theorem Singly.unique (left : Singly null next h xs) (right : Singly null next h ys) :
    xs = ys := by
  induction xs generalizing h ys with
  | nil =>
      cases ys with
      | nil => rfl
      | cons y ys => exact absurd (right.1.symm.trans left) right.2.1
  | cons x xs ih =>
      cases ys with
      | nil => exact absurd (left.1.symm.trans right) left.2.1
      | cons y ys =>
          have heads : x = y := left.1.symm.trans right.1
          subst heads
          rw [ih left.2.2 right.2.2]

theorem Singly.ne_null (list : Singly null next h xs) {x : α} (member : x ∈ xs) :
    x ≠ null := by
  induction xs generalizing h with
  | nil => simp at member
  | cons y ys ih =>
      rcases List.mem_cons.mp member with rfl | later
      · exact list.2.1
      · exact ih list.2.2 later

/-- Every suffix is the list that starts at its own head. -/
theorem Singly.suffix (list : Singly null next h (xs ++ ys)) :
    ∃ h', Singly null next h' ys := by
  induction xs generalizing h with
  | nil => exact ⟨h, list⟩
  | cons x xs ih => exact ih list.2.2

/-- A list that ends never visits a node twice: two suffixes with the same head
would be equal, and one of them is shorter. -/
theorem Singly.nodup (list : Singly null next h xs) : xs.Nodup := by
  induction xs generalizing h with
  | nil => simp
  | cons x xs ih =>
      refine List.nodup_cons.mpr ⟨fun again => ?_, ih list.2.2⟩
      obtain ⟨front, back, rfl⟩ := List.append_of_mem again
      obtain ⟨h', later⟩ := list.2.2.suffix
      have short : Singly null next x (x :: back) := ⟨rfl, later.2.1, later.2.2⟩
      have long : Singly null next x (x :: (front ++ x :: back)) := ⟨rfl, list.2⟩
      have lengths := congrArg List.length (short.unique long)
      simp at lengths
      omega

/-- Appending a node behind the last one. -/
theorem Singly.snoc {x z : α} (list : Singly null next h xs) (last : xs.getLast? = some z)
    (nonnull : x ≠ null) (link : next' z = x) (final : next' x = null)
    (same : ∀ y ∈ xs, y ≠ z → next' y = next y) : Singly null next' h (xs ++ [x]) := by
  induction xs generalizing h with
  | nil => simp at last
  | cons y ys ih =>
      obtain ⟨head, nonnullY, rest⟩ := list
      refine ⟨head, nonnullY, ?_⟩
      cases ys with
      | nil =>
          obtain rfl : y = z := by simpa using last
          exact ⟨link, nonnull, final⟩
      | cons w ws =>
          have last' : (w :: ws).getLast? = some z := by simpa using last
          have fresh := (List.nodup_cons.mp (Singly.nodup ⟨rfl, nonnullY, rest⟩)).1
          have differs : y ≠ z := fun eq => fresh (eq ▸ List.mem_of_getLast? last')
          rw [same y (by simp) differs]
          exact ih rest last' fun u member => same u (List.mem_cons_of_mem _ member)

/-- A link update outside the list is invisible. -/
theorem Singly.update [DecidableEq α] (list : Singly null next h xs) {a v : α}
    (outside : a ∉ xs) : Singly null (Function.update next a v) h xs :=
  list.congr fun x member =>
    Function.update_of_ne (show x ≠ a from fun eq => outside (eq ▸ member)) _ _

/-- Reading a list up to a node: the head segment before `y` and the list at
`y`. -/
theorem Singly.append_cons {y : α} (list : Singly null next h (xs ++ y :: ys)) :
    Singly null next y (y :: ys) := by
  obtain ⟨h', tail⟩ := list.suffix
  exact ⟨rfl, tail.2.1, tail.2.2⟩

end Singly

/-! ## Doubly linked lists -/

/-- A doubly linked list: following `next` from `h` visits exactly `xs`, and the
`prev` links point back, the first one to `p`. -/
def Doubly (prev next : α → α) : α → α → List α → Prop
  | _, h, [] => h = null
  | p, h, x :: xs => h = x ∧ x ≠ null ∧ prev x = p ∧ Doubly prev next x (next x) xs

section Doubly

variable {null} {prev next prev' next' : α → α} {p h : α} {xs ys zs : List α}

@[simp] theorem doubly_nil : Doubly null prev next p h [] ↔ h = null := Iff.rfl

@[simp] theorem doubly_cons {x : α} :
    Doubly null prev next p h (x :: xs) ↔
      h = x ∧ x ≠ null ∧ prev x = p ∧ Doubly null prev next x (next x) xs :=
  Iff.rfl

theorem Doubly.singly (list : Doubly null prev next p h xs) : Singly null next h xs := by
  induction xs generalizing p h with
  | nil => exact list
  | cons x xs ih => exact ⟨list.1, list.2.1, ih list.2.2.2⟩

theorem Doubly.nodup (list : Doubly null prev next p h xs) : xs.Nodup :=
  list.singly.nodup

/-- A list only depends on the links of its own nodes. -/
theorem Doubly.congr (list : Doubly null prev next p h xs)
    (samePrev : ∀ x ∈ xs, prev' x = prev x) (sameNext : ∀ x ∈ xs, next' x = next x) :
    Doubly null prev' next' p h xs := by
  induction xs generalizing p h with
  | nil => exact list
  | cons x xs ih =>
      obtain ⟨head, nonnull, back, rest⟩ := list
      refine ⟨head, nonnull, (samePrev x (by simp)).trans back, ?_⟩
      rw [sameNext x (by simp)]
      exact ih rest (fun y member => samePrev y (by simp [member]))
        (fun y member => sameNext y (by simp [member]))

/-- Every `prev` link names a node of the list or the outer `p`. -/
theorem Doubly.prev_mem (list : Doubly null prev next p h xs) {x : α} (member : x ∈ xs) :
    prev x = p ∨ prev x ∈ xs := by
  induction xs generalizing p h with
  | nil => simp at member
  | cons y ys ih =>
      obtain ⟨-, -, back, rest⟩ := list
      rcases List.mem_cons.mp member with rfl | later
      · exact Or.inl back
      · rcases ih rest later with first | inside
        · exact Or.inr (by simp [first])
        · exact Or.inr (by simp [inside])

/-- Every `next` link names a node of the list or `null`. -/
theorem Singly.next_mem (list : Singly null next h xs) {x : α} (member : x ∈ xs) :
    next x = null ∨ next x ∈ xs := by
  induction xs generalizing h with
  | nil => simp at member
  | cons y ys ih =>
      rcases List.mem_cons.mp member with rfl | later
      · cases ys with
        | nil => exact Or.inl list.2.2
        | cons z zs => exact Or.inr (by simp [list.2.2.1])
      · rcases ih list.2.2 later with last | inside
        · exact Or.inl last
        · exact Or.inr (by simp [inside])

theorem Singly.head_mem (list : Singly null next h xs) : h = null ∨ h ∈ xs := by
  cases xs with
  | nil => exact Or.inl list
  | cons x xs => exact Or.inr (by simp [list.1])

/-- The links of a list invert each other. -/
theorem Doubly.prev_eq_of_next_eq (list : Doubly null prev next p h xs) {x y : α}
    (memberY : y ∈ xs) (memberX : x ∈ xs) (link : next y = x) : prev x = y := by
  induction xs generalizing p h with
  | nil => simp at memberX
  | cons z zs ih =>
      have nodup := List.nodup_cons.mp list.nodup
      have rest := list.2.2.2
      rcases List.mem_cons.mp memberY with rfl | laterY
      · cases zs with
        | nil => exact absurd (link.symm.trans rest) (list.singly.ne_null memberX)
        | cons w ws =>
            have heads : x = w := link.symm.trans rest.1
            rw [heads]
            exact rest.2.2.1
      · rcases List.mem_cons.mp memberX with rfl | laterX
        · rcases rest.singly.next_mem laterY with last | inside
          · exact absurd (link.symm.trans last) (list.2.1)
          · exact absurd (link ▸ inside) nodup.1
        · exact ih rest laterY laterX

theorem Doubly.next_eq_of_prev_eq (list : Doubly null prev next p h xs) {x y : α}
    (outer : p ∉ xs) (memberY : y ∈ xs) (memberX : x ∈ xs) (link : prev x = y) :
    next y = x := by
  induction xs generalizing p h with
  | nil => simp at memberX
  | cons z zs ih =>
      have nodup := List.nodup_cons.mp list.nodup
      obtain ⟨-, -, back, rest⟩ := list
      rcases List.mem_cons.mp memberX with rfl | laterX
      · exact absurd ((back.symm.trans link) ▸ memberY) outer
      · rcases List.mem_cons.mp memberY with rfl | laterY
        · cases zs with
          | nil => simp at laterX
          | cons w ws =>
              rcases List.mem_cons.mp laterX with rfl | deeper
              · exact rest.1
              · rcases rest.2.2.2.prev_mem deeper with first | inside
                · exact absurd (first.symm.trans link ▸ List.mem_cons_self) nodup.1
                · exact absurd (List.mem_cons_of_mem _ (link ▸ inside)) nodup.1
        · exact ih rest nodup.1 laterY laterX

variable [DecidableEq α]

omit [DecidableEq α] in
/-- Only the first node has `p` before it. -/
theorem Doubly.prev_eq_outer_iff (list : Doubly null prev next p h xs) (outer : p ∉ xs)
    {x : α} (member : x ∈ xs) : prev x = p ↔ h = x := by
  cases xs with
  | nil => simp at member
  | cons w ws =>
      obtain ⟨rfl, -, back, rest⟩ := list
      constructor
      · intro first
        rcases List.mem_cons.mp member with rfl | later
        · rfl
        · rcases rest.prev_mem later with other | other
          · exact absurd (by simp [← first, other]) outer
          · exact absurd (by simp [← first, other]) outer
      · rintro rfl
        exact back

/-- Moving the head pointer of a list: only the first `prev` link has to
change. -/
theorem Doubly.rebase {q : α} (list : Doubly null prev next p h xs)
    (first : ∀ x ∈ xs, prev' x = if prev x = p then q else prev x)
    (sameNext : ∀ x ∈ xs, next' x = next x) (outer : p ∉ xs) :
    Doubly null prev' next' q h xs := by
  cases xs with
  | nil => exact list
  | cons x xs =>
      obtain ⟨head, nonnull, back, rest⟩ := list
      refine ⟨head, nonnull, by rw [first x (by simp), if_pos back], ?_⟩
      rw [sameNext x (by simp)]
      have fresh := (List.nodup_cons.mp (Doubly.nodup ⟨head, nonnull, back, rest⟩)).1
      refine rest.congr (fun y member => ?_) fun y member => sameNext y (by simp [member])
      rw [first y (by simp [member]), if_neg fun eq => ?_]
      rcases rest.prev_mem member with other | other
      · exact outer (by simp [← eq, other])
      · exact outer (by simp [← eq, other])

/-- **Unlinking.**  If every link that named `x` now names what `x` linked to,
the remaining nodes form the list without `x`. -/
theorem Doubly.unlink {x : α} (list : Doubly null prev next p h (ys ++ x :: zs))
    (outer : p ∉ ys ++ x :: zs)
    (hprev : ∀ y ∈ ys ++ zs, prev' y = if prev y = x then prev x else prev y)
    (hnext : ∀ y ∈ ys ++ zs, next' y = if next y = x then next x else next y) :
    Doubly null prev' next' p (if h = x then next x else h) (ys ++ zs) := by
  induction ys generalizing p h with
  | nil =>
      have nodup := List.nodup_cons.mp list.nodup
      obtain ⟨rfl, nonnull, rfl, rest⟩ := list
      rw [if_pos rfl]
      refine rest.rebase hprev (fun y member => ?_) nodup.1
      rw [hnext y member, if_neg fun eq => ?_]
      rcases rest.singly.next_mem member with last | inside
      · exact nonnull (eq.symm.trans last)
      · exact nodup.1 (eq ▸ inside)
  | cons w ys ih =>
      have nodup := List.nodup_cons.mp list.nodup
      obtain ⟨rfl, nonnull, back, rest⟩ := list
      have differs : h ≠ x := fun eq => nodup.1 (by simp [eq])
      rw [if_neg differs]
      refine ⟨rfl, nonnull, ?_, ?_⟩
      · rw [hprev h (by simp), if_neg fun eq => ?_, back]
        exact outer (by simp [← eq, back])
      · rw [hnext h (by simp)]
        exact ih rest nodup.1 (fun y member => hprev y (List.mem_cons_of_mem _ member))
          (fun y member => hnext y (List.mem_cons_of_mem _ member))

/-- **Replacing a node.**  If `x'` carries the links of `x` and every link that
named `x` now names `x'`, the list has `x'` in the place of `x`. -/
theorem Doubly.replace {x x' : α} (list : Doubly null prev next p h (ys ++ x :: zs))
    (outer : p ∉ ys ++ x :: zs) (nonnull' : x' ≠ null)
    (selfPrev : prev' x' = prev x) (selfNext : next' x' = next x)
    (hprev : ∀ y ∈ ys ++ zs, prev' y = if prev y = x then x' else prev y)
    (hnext : ∀ y ∈ ys ++ zs, next' y = if next y = x then x' else next y) :
    Doubly null prev' next' p (if h = x then x' else h) (ys ++ x' :: zs) := by
  induction ys generalizing p h with
  | nil =>
      have nodup := List.nodup_cons.mp list.nodup
      obtain ⟨rfl, nonnull, back, rest⟩ := list
      rw [if_pos rfl]
      refine ⟨rfl, nonnull', selfPrev.trans back, ?_⟩
      rw [selfNext]
      refine rest.rebase hprev (fun y member => ?_) nodup.1
      rw [hnext y member, if_neg fun eq => ?_]
      rcases rest.singly.next_mem member with last | inside
      · exact nonnull (eq.symm.trans last)
      · exact nodup.1 (eq ▸ inside)
  | cons w ys ih =>
      have nodup := List.nodup_cons.mp list.nodup
      obtain ⟨rfl, nonnull, back, rest⟩ := list
      have differs : h ≠ x := fun eq => nodup.1 (by simp [eq])
      rw [if_neg differs]
      refine ⟨rfl, nonnull, ?_, ?_⟩
      · rw [hprev h (by simp), if_neg fun eq => ?_, back]
        exact outer (by simp [← eq, back])
      · rw [hnext h (by simp)]
        exact ih rest nodup.1 (fun y member => hprev y (List.mem_cons_of_mem _ member))
          (fun y member => hnext y (List.mem_cons_of_mem _ member))

/-- **Pushing a node to the front.** -/
theorem Doubly.pushFront {x : α} (list : Doubly null prev next p h xs)
    (outer : p ∉ xs) (nonnull : x ≠ null)
    (selfPrev : prev' x = p) (selfNext : next' x = h)
    (hprev : ∀ y ∈ xs, prev' y = if prev y = p then x else prev y)
    (hnext : ∀ y ∈ xs, next' y = next y) :
    Doubly null prev' next' p x (x :: xs) := by
  refine ⟨rfl, nonnull, selfPrev, ?_⟩
  rw [selfNext]
  exact list.rebase hprev hnext outer

end Doubly

end PointerList
