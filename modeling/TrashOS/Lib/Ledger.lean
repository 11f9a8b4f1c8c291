import Mathlib.Data.List.Nodup
import Mathlib.Logic.Function.Basic

/-!
# Ledgers of numbered units

Units are handed out, held by slots, given back and handed out again.  A ledger
says where they are: `spare` lists the units that were given back, everything from
`next` on was never handed out, `held` says which unit a slot holds, and `issued`
which units are in somebody's hands.

`Ledger.Sound` is the invariant: a spare unit is listed once and nobody has it.
The moves are `take` and `takeNew`, `hold` and `giveBack`; each keeps the invariant,
and the unit it hands out is `Fresh`.  The units of some slots, `sole`, are held by
no other slot; only these may be given back.
-/

namespace TrashOS

/-- Where the units are. -/
structure Ledger (κ : Type) where
  spare : List ℕ
  next : ℕ
  held : κ → Option ℕ
  issued : ℕ → Prop

namespace Ledger

variable {κ : Type}

/-- A spare unit is listed once and nobody has it, and no unit is from the part
that was never handed out. -/
structure Sound (L : Ledger κ) (sole : κ → Prop) : Prop where
  distinct : L.spare.Nodup
  spareBelow : ∀ u ∈ L.spare, u < L.next
  heldBelow : ∀ k u, L.held k = some u → u < L.next
  issuedBelow : ∀ u, L.issued u → u < L.next
  unheld : ∀ u ∈ L.spare, ∀ k, L.held k ≠ some u
  unissued : ∀ u ∈ L.spare, ¬ L.issued u
  alone : ∀ k k' u, sole k → L.held k = some u → L.held k' = some u → k' = k

/-- Nobody has the unit. -/
structure Fresh (L : Ledger κ) (u : ℕ) : Prop where
  below : u < L.next
  notSpare : u ∉ L.spare
  unheld : ∀ k, L.held k ≠ some u
  unissued : ¬ L.issued u

/-- The unit is in somebody's hands. -/
def issue (L : Ledger κ) (u : ℕ) : Ledger κ := { L with issued := fun w => w = u ∨ L.issued w }

/-- A slot holds the unit. -/
def hold [DecidableEq κ] (L : Ledger κ) (k : κ) (u : ℕ) : Ledger κ :=
  { L with held := Function.update L.held k (some u) }

/-- A slot gives its unit back. -/
def giveBack [DecidableEq κ] (L : Ledger κ) (k : κ) (u : ℕ) : Ledger κ :=
  { L with
    spare := u :: L.spare
    held := Function.update L.held k none
    issued := fun w => w ≠ u ∧ L.issued w }

/-- The slots `ks` give their units back, the first one first. -/
def giveBackAll [DecidableEq κ] (L : Ledger κ) (ks : List κ) (f : κ → ℕ) : Ledger κ where
  spare := (ks.map f).reverse ++ L.spare
  next := L.next
  held := fun k => if k ∈ ks then none else L.held k
  issued := fun w => w ∉ ks.map f ∧ L.issued w

variable {L L' : Ledger κ} {sole sole' : κ → Prop} {u w : ℕ} {rest : List ℕ}

/-- Fewer units may be in somebody's hands, and fewer slots hold theirs alone. -/
theorem Sound.mono (sound : L.Sound sole) (spare : L'.spare = L.spare) (next : L'.next = L.next)
    (held : L'.held = L.held) (issued : ∀ u, L'.issued u → L.issued u)
    (less : ∀ k, sole' k → sole k) : L'.Sound sole' where
  distinct := spare ▸ sound.distinct
  spareBelow := by
    rw [spare, next]
    exact sound.spareBelow
  heldBelow := by
    rw [held, next]
    exact sound.heldBelow
  issuedBelow u here := by
    rw [next]
    exact sound.issuedBelow u (issued u here)
  unheld := by
    rw [spare, held]
    exact sound.unheld
  unissued u member here := by
    rw [spare] at member
    exact sound.unissued u member (issued u here)
  alone k k' u solely := by
    rw [held]
    exact sound.alone k k' u (less k solely)

theorem Fresh.mono (fresh : L.Fresh u) (spare : L'.spare = L.spare) (next : L'.next = L.next)
    (held : L'.held = L.held) (issued : ∀ u, L'.issued u → L.issued u) : L'.Fresh u where
  below := next ▸ fresh.below
  notSpare := spare ▸ fresh.notSpare
  unheld := held ▸ fresh.unheld
  unissued here := fresh.unissued (issued u here)

/-- The first spare unit is taken from the list. -/
theorem Sound.take (sound : L.Sound sole) (spare : L.spare = u :: rest) :
    Sound { L with spare := rest } sole ∧ Fresh { L with spare := rest } u := by
  have distinct := List.nodup_cons.mp (spare ▸ sound.distinct)
  have listed : ∀ w ∈ rest, w ∈ L.spare := fun w member =>
    spare ▸ List.mem_cons_of_mem _ member
  have head : u ∈ L.spare := spare ▸ List.mem_cons_self
  constructor
  · exact ⟨distinct.2, fun w member => sound.spareBelow w (listed w member), sound.heldBelow,
      sound.issuedBelow, fun w member => sound.unheld w (listed w member),
      fun w member => sound.unissued w (listed w member), sound.alone⟩
  · exact ⟨sound.spareBelow u head, distinct.1, sound.unheld u head, sound.unissued u head⟩

/-- A unit that was never handed out. -/
theorem Sound.takeNew (sound : L.Sound sole) {next : ℕ} (more : L.next < next) :
    Sound { L with next := next } sole ∧ Fresh { L with next := next } L.next := by
  constructor
  · exact ⟨sound.distinct, fun w member => Nat.lt_trans (sound.spareBelow w member) more,
      fun k w here => Nat.lt_trans (sound.heldBelow k w here) more,
      fun w issued => Nat.lt_trans (sound.issuedBelow w issued) more, sound.unheld,
      sound.unissued, sound.alone⟩
  · exact ⟨more, fun member => Nat.lt_irrefl _ (sound.spareBelow _ member),
      fun k here => Nat.lt_irrefl _ (sound.heldBelow k _ here),
      fun issued => Nat.lt_irrefl _ (sound.issuedBelow _ issued)⟩

/-- What nobody has may be put into somebody's hands. -/
theorem Sound.issue (sound : L.Sound sole) (fresh : L.Fresh u) : (L.issue u).Sound sole where
  distinct := sound.distinct
  spareBelow := sound.spareBelow
  heldBelow := sound.heldBelow
  issuedBelow w issued := by
    rcases issued with rfl | issued
    · exact fresh.below
    · exact sound.issuedBelow w issued
  unheld := sound.unheld
  unissued w member issued := by
    rcases issued with rfl | issued
    · exact fresh.notSpare member
    · exact sound.unissued w member issued
  alone := sound.alone

section Slots

variable [DecidableEq κ] {k : κ}

/-- A slot may take a unit that is not spare and that no slot holds. -/
theorem Sound.hold (sound : L.Sound sole) (below : u < L.next) (notSpare : u ∉ L.spare)
    (unheld : ∀ k, L.held k ≠ some u) :
    (L.hold k u).Sound fun k' => k' = k ∨ sole k' := by
  have same : (L.hold k u).held k = some u := Function.update_self _ _ _
  have other : ∀ k', k' ≠ k → (L.hold k u).held k' = L.held k' := fun k' differ =>
    Function.update_of_ne differ _ _
  refine ⟨sound.distinct, sound.spareBelow, fun k' w here => ?_, sound.issuedBelow,
    fun w member k' here => ?_, sound.unissued, fun k₁ k₂ w solely here there => ?_⟩
  · by_cases eq : k' = k
    · rw [eq, same] at here
      cases here
      exact below
    · rw [other k' eq] at here
      exact sound.heldBelow k' w here
  · by_cases eq : k' = k
    · rw [eq, same] at here
      cases here
      exact notSpare member
    · rw [other k' eq] at here
      exact sound.unheld w member k' here
  · by_cases eq₁ : k₁ = k
    · by_cases eq₂ : k₂ = k
      · exact eq₂.trans eq₁.symm
      · rw [eq₁, same] at here
        cases here
        rw [other k₂ eq₂] at there
        exact absurd there (unheld k₂)
    · have solely := solely.resolve_left eq₁
      rw [other k₁ eq₁] at here
      by_cases eq₂ : k₂ = k
      · rw [eq₂, same] at there
        cases there
        exact absurd here (unheld k₁)
      · rw [other k₂ eq₂] at there
        exact sound.alone k₁ k₂ w solely here there

theorem giveBack_held (k' : κ) :
    (L.giveBack k u).held k' = if k' = k then none else L.held k' :=
  Function.update_apply _ _ _ _

/-- A slot may lose its unit. -/
theorem Sound.lose (sound : L.Sound sole) :
    Sound { L with held := Function.update L.held k none } sole := by
  have held : ∀ k' w, Function.update L.held k none k' = some w → L.held k' = some w := by
    intro k' w holds
    by_cases same : k' = k
    · rw [same, Function.update_self] at holds
      cases holds
    · rwa [Function.update_of_ne same] at holds
  exact ⟨sound.distinct, sound.spareBelow, fun k' w holds => sound.heldBelow k' w (held k' w holds),
    sound.issuedBelow, fun w member k' holds => sound.unheld w member k' (held k' w holds),
    sound.unissued, fun k₁ k₂ w solely here there =>
      sound.alone k₁ k₂ w solely (held k₁ w here) (held k₂ w there)⟩

/-- A slot whose unit no other slot holds may give it back. -/
theorem Sound.giveBack (sound : L.Sound sole) (solely : sole k) (here : L.held k = some u) :
    (L.giveBack k u).Sound sole := by
  have held : ∀ k' w, (L.giveBack k u).held k' = some w → k' ≠ k ∧ L.held k' = some w := by
    intro k' w holds
    rw [giveBack_held] at holds
    split at holds
    · cases holds
    next differ => exact ⟨differ, holds⟩
  refine ⟨List.nodup_cons.mpr ⟨fun member => sound.unheld u member k here, sound.distinct⟩,
    fun w member => ?_, fun k' w holds => sound.heldBelow k' w (held k' w holds).2,
    fun w issued => sound.issuedBelow w issued.2, fun w member k' holds => ?_,
    fun w member issued => ?_, fun k₁ k₂ w solely₁ here₁ there => ?_⟩
  · rcases List.mem_cons.mp member with rfl | member
    · exact sound.heldBelow k w here
    · exact sound.spareBelow w member
  · obtain ⟨differ, there⟩ := held k' w holds
    rcases List.mem_cons.mp member with rfl | member
    · exact differ (sound.alone k k' w solely here there)
    · exact sound.unheld w member k' there
  · rcases List.mem_cons.mp member with rfl | member
    · exact issued.1 rfl
    · exact sound.unissued w member issued.2
  · exact sound.alone k₁ k₂ w solely₁ (held k₁ w here₁).2 (held k₂ w there).2

/-- What nobody has is not given back. -/
theorem Fresh.giveBack (fresh : L.Fresh w) (here : L.held k = some u) :
    (L.giveBack k u).Fresh w := by
  have differ : w ≠ u := fun same => fresh.unheld k (same ▸ here)
  refine ⟨fresh.below, fun member => ?_, fun k' holds => ?_, fun issued => fresh.unissued issued.2⟩
  · exact fresh.notSpare ((List.mem_cons.mp member).resolve_left differ)
  · rw [giveBack_held] at holds
    split at holds
    · cases holds
    · exact fresh.unheld k' holds

theorem giveBackAll_nil (f : κ → ℕ) : (L.giveBackAll [] f).spare = L.spare ∧
    (L.giveBackAll [] f).held = L.held := by
  refine ⟨rfl, ?_⟩
  funext k
  change (if k ∈ [] then none else L.held k) = L.held k
  rw [if_neg List.not_mem_nil]

theorem giveBackAll_cons (ks : List κ) (f : κ → ℕ) :
    (L.giveBackAll (k :: ks) f).spare = ((L.giveBack k (f k)).giveBackAll ks f).spare ∧
      (L.giveBackAll (k :: ks) f).held = ((L.giveBack k (f k)).giveBackAll ks f).held ∧
      ∀ w, (L.giveBackAll (k :: ks) f).issued w →
        ((L.giveBack k (f k)).giveBackAll ks f).issued w := by
  refine ⟨?_, ?_, fun w out => ?_⟩
  · change ((k :: ks).map f).reverse ++ L.spare = (ks.map f).reverse ++ (f k :: L.spare)
    rw [List.map_cons, List.reverse_cons, List.append_assoc]
    rfl
  · funext k'
    change (if k' ∈ k :: ks then none else L.held k') =
      if k' ∈ ks then none else (L.giveBack k (f k)).held k'
    rw [giveBack_held]
    by_cases same : k' = k <;> by_cases member : k' ∈ ks <;> simp [same, member]
  · obtain ⟨out, issued⟩ := out
    rw [List.map_cons, List.mem_cons, not_or] at out
    exact ⟨out.2, out.1, issued⟩

/-- Several slots that hold their units alone may give them back. -/
theorem Sound.giveBackAll (f : κ → ℕ) :
    ∀ (ks : List κ) {L : Ledger κ}, L.Sound sole → ks.Nodup → (∀ k ∈ ks, sole k) →
      (∀ k ∈ ks, L.held k = some (f k)) →
      (L.giveBackAll ks f).Sound sole ∧ ∀ w, L.Fresh w → (L.giveBackAll ks f).Fresh w
  | [], L, sound, _, _, _ =>
      have same := L.giveBackAll_nil f
      ⟨sound.mono same.1 rfl same.2 (fun _ issued => issued.2) fun _ => id,
        fun _ fresh => fresh.mono same.1 rfl same.2 fun _ issued => issued.2⟩
  | k :: ks, L, sound, nodup, solely, here => by
      obtain ⟨notLater, nodup⟩ := List.nodup_cons.mp nodup
      have head := here k List.mem_cons_self
      have later : ∀ k' ∈ ks, (L.giveBack k (f k)).held k' = some (f k') := by
        intro k' member
        rw [giveBack_held, if_neg fun same : k' = k => notLater (same ▸ member)]
        exact here k' (List.mem_cons_of_mem _ member)
      obtain ⟨all, keeps⟩ := Sound.giveBackAll f ks
        (sound.giveBack (solely k List.mem_cons_self) head) nodup
        (fun k' member => solely k' (List.mem_cons_of_mem _ member)) later
      obtain ⟨spare, held, issued⟩ := L.giveBackAll_cons (k := k) ks f
      exact ⟨all.mono spare rfl held issued fun _ => id,
        fun w fresh => (keeps w (fresh.giveBack head)).mono spare rfl held issued⟩

end Slots

end Ledger

end TrashOS
