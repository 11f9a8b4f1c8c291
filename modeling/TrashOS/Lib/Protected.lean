import TrashOS.Lib.BitFields

/-!
# Protected mode: descriptors, selectors and gates

What a 32-bit x86 processor makes of the words in a descriptor table, and the checks it
runs when a selector goes into a segment register.  A `Table` is a descriptor table in
memory with the limit of its register; there is no local table, so a selector that asks
for one finds nothing.

* `Descriptor.decode` and `Descriptor.encode` are the layout of a segment descriptor
  (`decode_encode`, `encode_decode`), `Gate.decode` that of a gate.
* `loadData`, `loadStack`, `returnCode` and `farTarget` are the loads of the data segment
  registers, of `ss`, of `cs` by a return, and of `cs` by a far jump or call.
* `enter` is what happens to an event before the first word is pushed.

What may be loaded in an outer ring may be loaded further in (`loadData_inner`), and a
return to an outer ring keeps what that ring may load (`revoke_eq`).
-/

namespace X86

open BitFields

/-! ## Descriptors -/

/-- A segment or system descriptor. -/
@[ext]
structure Descriptor where
  limit : ℕ
  base : ℕ
  type : ℕ
  /-- Code or data, and not a system segment -/
  segment : ℕ
  dpl : ℕ
  present : ℕ
  available : ℕ
  long : ℕ
  big : ℕ
  granular : ℕ
  deriving DecidableEq, Repr

namespace Descriptor

variable {d : Descriptor} {w : ℕ}

/-- The values have the sizes of their fields. -/
structure Fits (d : Descriptor) : Prop where
  limit : d.limit < 2 ^ 20
  base : d.base < 2 ^ 32
  type : d.type < 2 ^ 4
  segment : d.segment < 2
  dpl : d.dpl < 4
  present : d.present < 2
  available : d.available < 2
  long : d.long < 2
  big : d.big < 2
  granular : d.granular < 2

/-- Limit and base are split. -/
def layout : List ℕ := [16, 24, 4, 1, 2, 1, 4, 1, 1, 1, 1, 8]

/-- The word in the table. -/
def encode (d : Descriptor) : ℕ :=
  pack layout [d.limit, d.base, d.type, d.segment, d.dpl, d.present, d.limit / 2 ^ 16,
    d.available, d.long, d.big, d.granular, d.base / 2 ^ 24]

/-- What the processor reads out of a word. -/
def decode (w : ℕ) : Descriptor where
  limit := field 0 16 w + 2 ^ 16 * field 48 4 w
  base := field 16 24 w + 2 ^ 24 * field 56 8 w
  type := field 40 4 w
  segment := field 44 1 w
  dpl := field 45 2 w
  present := field 47 1 w
  available := field 52 1 w
  long := field 53 1 w
  big := field 54 1 w
  granular := field 55 1 w

theorem encode_lt (d : Descriptor) : d.encode < 2 ^ 64 := pack_lt layout _

theorem decode_fits (w : ℕ) : (decode w).Fits where
  limit := by
    have low := field_lt 0 16 w
    have high := field_lt 48 4 w
    dsimp only [decode]
    omega
  base := by
    have low := field_lt 16 24 w
    have high := field_lt 56 8 w
    dsimp only [decode]
    omega
  type := field_lt 40 4 w
  segment := field_lt 44 1 w
  dpl := field_lt 45 2 w
  present := field_lt 47 1 w
  available := field_lt 52 1 w
  long := field_lt 53 1 w
  big := field_lt 54 1 w
  granular := field_lt 55 1 w

/-- The processor reads what was encoded. -/
theorem decode_encode (fits : d.Fits) : decode d.encode = d := by
  have limit := fits.limit
  have base := fits.base
  have low : d.limit % 2 ^ 16 + 2 ^ 16 * (d.limit / 2 ^ 16 % 2 ^ 4) = d.limit := by omega
  have high : d.base % 2 ^ 24 + 2 ^ 24 * (d.base / 2 ^ 24 % 2 ^ 8) = d.base := by omega
  unfold decode encode layout
  simp (disch := decide) only [field_pack_tail, field_pack_head, Nat.reduceSub]
  rw [low, high, Nat.mod_eq_of_lt fits.type, Nat.mod_eq_of_lt (show d.dpl < 2 ^ 2 from fits.dpl)]
  simp only [pow_one, Nat.mod_eq_of_lt fits.segment, Nat.mod_eq_of_lt fits.present,
    Nat.mod_eq_of_lt fits.available, Nat.mod_eq_of_lt fits.long, Nat.mod_eq_of_lt fits.big,
    Nat.mod_eq_of_lt fits.granular]

/-- Every word is the encoding of what the processor reads out of it. -/
theorem encode_decode (word : w < 2 ^ 64) : encode (decode w) = w := by
  have fields : unpack layout w = [field 0 16 w, field 16 24 w, field 40 4 w, field 44 1 w,
      field 45 2 w, field 47 1 w, field 48 4 w, field 52 1 w, field 53 1 w, field 54 1 w,
      field 55 1 w, field 56 8 w] := by
    simp only [unpack, layout, field, Nat.div_div_eq_div_mul, pow_zero, Nat.div_one, ← pow_add,
      Nat.reduceAdd]
  have packed := pack_unpack layout w
  rw [show layout.sum = 64 from rfl, Nat.mod_eq_of_lt word, fields] at packed
  have low := field_lt 0 16 w
  have high := field_lt 16 24 w
  have limit : (field 0 16 w + 2 ^ 16 * field 48 4 w) / 2 ^ 16 = field 48 4 w := by omega
  have base : (field 16 24 w + 2 ^ 24 * field 56 8 w) / 2 ^ 24 = field 56 8 w := by omega
  refine Eq.trans ?_ packed
  unfold encode decode
  dsimp only
  rw [limit, base]
  simp only [layout, pack, Nat.add_mul_mod_self_left]

/-- A code segment. -/
def Code (d : Descriptor) : Prop := d.segment = 1 ∧ 8 ≤ d.type

/-- A code segment that keeps the privilege level of its caller. -/
def Conforming (d : Descriptor) : Prop := d.Code ∧ d.type / 4 % 2 = 1

/-- A data segment, or a code segment that may be read. -/
def Readable (d : Descriptor) : Prop := d.segment = 1 ∧ (d.type < 8 ∨ d.type / 2 % 2 = 1)

/-- A data segment that may be written. -/
def Writable (d : Descriptor) : Prop := d.segment = 1 ∧ d.type < 8 ∧ d.type / 2 % 2 = 1

instance (d : Descriptor) : Decidable d.Code := inferInstanceAs (Decidable (_ ∧ _))

instance (d : Descriptor) : Decidable d.Conforming := inferInstanceAs (Decidable (_ ∧ _))

instance (d : Descriptor) : Decidable d.Readable := inferInstanceAs (Decidable (_ ∧ _))

instance (d : Descriptor) : Decidable d.Writable := inferInstanceAs (Decidable (_ ∧ _))

/-- The last byte of a segment that does not expand down. -/
def lastByte (d : Descriptor) : ℕ := if d.granular = 1 then d.limit * 4096 + 4095 else d.limit

/-- The linear address of `size` bytes at `offset`, when all of them lie inside. -/
def linear (d : Descriptor) (offset size : ℕ) : Option ℕ :=
  if offset + size ≤ d.lastByte + 1 then some ((d.base + offset) % 2 ^ 32) else none

end Descriptor

/-! ## Selectors -/

/-- What the processor raises; the error code names the selector or the gate. -/
inductive Fault where
  | generalProtection (code : ℕ)
  | notPresent (code : ℕ)
  | stack (code : ℕ)
  | invalidTss (code : ℕ)
  deriving DecidableEq, Repr

/-- The selector in an error code. -/
def errorCode (sel : ℕ) : ℕ := sel / 4 * 4

/-- A descriptor table: the word at each index, and the offset of its last byte. -/
structure Table where
  entry : ℕ → ℕ
  limit : ℕ

namespace Table

variable {t : Table} {cpl level sel vector : ℕ} {d : Descriptor}

/-- The descriptor that a selector names. -/
def descriptor (t : Table) (sel : ℕ) : Option Descriptor :=
  if sel / 4 % 2 = 0 ∧ sel / 8 * 8 + 7 ≤ t.limit then some (.decode (t.entry (sel / 8))) else none

/-- `ds`, `es`, `fs` or `gs` is loaded; the null selectors go through. -/
def loadData (t : Table) (cpl sel : ℕ) : Except Fault (Option Descriptor) :=
  if sel < 4 then .ok none
  else
    match t.descriptor sel with
    | none => .error (.generalProtection (errorCode sel))
    | some d =>
        if ¬ d.Readable then .error (.generalProtection (errorCode sel))
        else if ¬ d.Conforming ∧ (d.dpl < sel % 4 ∨ d.dpl < cpl) then
          .error (.generalProtection (errorCode sel))
        else if d.present = 0 then .error (.notPresent (errorCode sel))
        else .ok (some d)

/-- `ss` is loaded. -/
def loadStack (t : Table) (cpl sel : ℕ) : Except Fault Descriptor :=
  if sel < 4 then .error (.generalProtection 0)
  else
    match t.descriptor sel with
    | none => .error (.generalProtection (errorCode sel))
    | some d =>
        if sel % 4 ≠ cpl ∨ ¬ d.Writable ∨ d.dpl ≠ cpl then
          .error (.generalProtection (errorCode sel))
        else if d.present = 0 then .error (.stack (errorCode sel))
        else .ok d

/-- `cs` is loaded by a return. -/
def returnCode (t : Table) (cpl sel : ℕ) : Except Fault Descriptor :=
  if sel < 4 then .error (.generalProtection 0)
  else
    match t.descriptor sel with
    | none => .error (.generalProtection (errorCode sel))
    | some d =>
        if ¬ d.Code ∨ sel % 4 < cpl then .error (.generalProtection (errorCode sel))
        else if d.Conforming ∧ sel % 4 < d.dpl ∨ ¬ d.Conforming ∧ d.dpl ≠ sel % 4 then
          .error (.generalProtection (errorCode sel))
        else if d.present = 0 then .error (.notPresent (errorCode sel))
        else .ok d

/-- Where a far jump or call goes. -/
inductive Target where
  /-- Into a code segment, with the new `cs` -/
  | code (cs : ℕ)
  /-- Through a call gate -/
  | gate (sel : ℕ)
  /-- To another task -/
  | task (sel : ℕ)
  deriving DecidableEq, Repr

/-- `cs` is loaded by a far jump or call. -/
def farTarget (t : Table) (cpl sel : ℕ) : Except Fault Target :=
  if sel < 4 then .error (.generalProtection 0)
  else
    match t.descriptor sel with
    | none => .error (.generalProtection (errorCode sel))
    | some d =>
        if d.Code then
          if d.Conforming ∧ cpl < d.dpl ∨ ¬ d.Conforming ∧ (cpl < sel % 4 ∨ d.dpl ≠ cpl) then
            .error (.generalProtection (errorCode sel))
          else if d.present = 0 then .error (.notPresent (errorCode sel))
          else .ok (.code (sel / 4 * 4 + cpl))
        -- Available tasks, call gates and task gates; a busy task is none of them.
        else if d.segment = 1 ∨ d.type ∉ [1, 9, 4, 12, 5] ∨ d.dpl < cpl ∨ d.dpl < sel % 4 then
          .error (.generalProtection (errorCode sel))
        else if d.present = 0 then .error (.notPresent (errorCode sel))
        else .ok (if d.type ∈ [4, 12] then .gate sel else .task sel)

/-- `ltr`: the task becomes busy. -/
def loadTask (t : Table) (sel : ℕ) : Except Fault Table :=
  if sel < 4 then .error (.generalProtection 0)
  else
    match t.descriptor sel with
    | none => .error (.generalProtection (errorCode sel))
    | some d =>
        if d.segment = 1 ∨ d.type ∉ [1, 9] then .error (.generalProtection (errorCode sel))
        else if d.present = 0 then .error (.notPresent (errorCode sel))
        else .ok { t with
          entry := Function.update t.entry (sel / 8) ({ d with type := d.type + 2 }).encode }

/-- A data segment register after a return to ring `level`. -/
def revoke (t : Table) (level sel : ℕ) : ℕ :=
  if sel < 4 then sel
  else
    match t.descriptor sel with
    | none => 0
    | some d => if ¬ d.Conforming ∧ d.dpl < level then 0 else sel

/-! ## Which selectors go through -/

theorem loadData_isOk : (t.loadData cpl sel).isOk ↔ sel < 4 ∨ ∃ d, t.descriptor sel = some d ∧
    d.Readable ∧ (d.Conforming ∨ sel % 4 ≤ d.dpl ∧ cpl ≤ d.dpl) ∧ d.present ≠ 0 := by
  unfold loadData
  by_cases null : sel < 4
  · rw [if_pos null]
    exact iff_of_true rfl (Or.inl null)
  · rw [if_neg null, or_iff_right null]
    cases found : t.descriptor sel with
    | none =>
        refine iff_of_false Bool.false_ne_true ?_
        rintro ⟨d, none, -⟩
        cases none
    | some d =>
        simp only [Option.some.injEq, exists_eq_left']
        split_ifs with readable denied absent
        · refine iff_of_false Bool.false_ne_true fun all => ?_
          obtain ⟨not, low⟩ := denied
          have allowed := all.2.1.resolve_left not
          omega
        · exact iff_of_false Bool.false_ne_true fun all => all.2.2 absent
        · refine iff_of_true rfl ⟨readable, ?_, absent⟩
          by_cases conforming : d.Conforming
          · exact Or.inl conforming
          · refine Or.inr ?_
            by_contra low
            exact denied ⟨conforming, by omega⟩
        · exact iff_of_false Bool.false_ne_true fun all => readable all.1

theorem of_loadData (loads : t.loadData cpl sel = .ok (some d)) :
    t.descriptor sel = some d ∧ d.Readable := by
  unfold loadData at loads
  by_cases null : sel < 4
  · rw [if_pos null] at loads
    cases loads
  · rw [if_neg null] at loads
    cases found : t.descriptor sel with
    | none =>
        rw [found] at loads
        cases loads
    | some e =>
        rw [found] at loads
        dsimp only at loads
        split_ifs at loads with readable
        obtain rfl := Option.some.inj (Except.ok.inj loads)
        exact ⟨rfl, readable⟩

/-- **What an outer ring may load, an inner ring may load.** -/
theorem loadData_inner (inner : level ≤ cpl) (loads : (t.loadData cpl sel).isOk) :
    (t.loadData level sel).isOk := by
  rw [loadData_isOk] at loads ⊢
  refine loads.imp_right ?_
  rintro ⟨d, found, readable, allowed, present⟩
  exact ⟨d, found, readable, allowed.imp_right fun both => ⟨both.1, inner.trans both.2⟩, present⟩

/-- A return to a ring keeps what that ring may load. -/
theorem revoke_eq (loads : (t.loadData level sel).isOk) : t.revoke level sel = sel := by
  unfold revoke
  by_cases null : sel < 4
  · exact if_pos null
  · rw [if_neg null]
    obtain ⟨d, found, -, allowed, -⟩ := (loadData_isOk.mp loads).resolve_left null
    rw [found]
    refine if_neg ?_
    rintro ⟨not, low⟩
    have kept := (allowed.resolve_left not).2
    omega

theorem loadStack_eq_ok : t.loadStack cpl sel = .ok d ↔ 4 ≤ sel ∧ t.descriptor sel = some d ∧
    sel % 4 = cpl ∧ d.Writable ∧ d.dpl = cpl ∧ d.present ≠ 0 := by
  unfold loadStack
  by_cases null : sel < 4
  · rw [if_pos null]
    exact iff_of_false (fun error => nomatch error) fun all => by omega
  · rw [if_neg null, and_iff_right (by omega)]
    cases found : t.descriptor sel with
    | none => exact iff_of_false (fun error => nomatch error) fun all => nomatch all.1
    | some e =>
        simp only [Option.some.injEq]
        split_ifs with denied absent
        · refine iff_of_false (fun error => nomatch error) ?_
          rintro ⟨rfl, rpl, writable, dpl, -⟩
          exact denied.elim (· rpl) fun rest => rest.elim (· writable) (· dpl)
        · refine iff_of_false (fun error => nomatch error) ?_
          rintro ⟨rfl, -, -, -, present⟩
          exact present absent
        · simp only [not_or, not_not, ne_eq] at denied
          rw [Except.ok.injEq]
          refine ⟨fun same => ?_, fun all => all.1⟩
          subst same
          exact ⟨rfl, denied.1, denied.2.1, denied.2.2, absent⟩

theorem returnCode_eq_ok : t.returnCode cpl sel = .ok d ↔ 4 ≤ sel ∧ t.descriptor sel = some d ∧
    d.Code ∧ cpl ≤ sel % 4 ∧ (d.Conforming ∧ d.dpl ≤ sel % 4 ∨ ¬ d.Conforming ∧ d.dpl = sel % 4) ∧
      d.present ≠ 0 := by
  unfold returnCode
  by_cases null : sel < 4
  · rw [if_pos null]
    exact iff_of_false (fun error => nomatch error) fun all => by omega
  · rw [if_neg null, and_iff_right (by omega)]
    cases found : t.descriptor sel with
    | none => exact iff_of_false (fun error => nomatch error) fun all => nomatch all.1
    | some e =>
        simp only [Option.some.injEq]
        split_ifs with denied ring absent
        · refine iff_of_false (fun error => nomatch error) ?_
          rintro ⟨rfl, code, outer, -⟩
          exact denied.elim (· code) fun inner => by omega
        · refine iff_of_false (fun error => nomatch error) ?_
          rintro ⟨rfl, -, -, ⟨conforming, low⟩ | ⟨not, same⟩, -⟩
          · obtain ⟨-, high⟩ | ⟨not, -⟩ := ring
            · omega
            · exact not conforming
          · obtain ⟨conforming, -⟩ | ⟨-, differs⟩ := ring
            · exact not conforming
            · exact differs same
        · refine iff_of_false (fun error => nomatch error) ?_
          rintro ⟨rfl, -, -, -, present⟩
          exact present absent
        · rw [Except.ok.injEq]
          refine ⟨fun same => ?_, fun all => all.1⟩
          subst same
          refine ⟨rfl, not_not.mp fun data => denied (Or.inl data), by omega, ?_, absent⟩
          by_cases conforming : e.Conforming
          · exact Or.inl ⟨conforming, by_contra fun high => ring (Or.inl ⟨conforming, by omega⟩)⟩
          · exact Or.inr ⟨conforming, by_contra fun differs => ring (Or.inr ⟨conforming, differs⟩)⟩

/-- A far jump goes into a code segment of the same ring, or follows a system descriptor. -/
theorem of_farTarget {target : Target} (goes : t.farTarget cpl sel = .ok target) :
    ∃ d, t.descriptor sel = some d ∧ d.present ≠ 0 ∧
      (d.Code ∧ target = .code (sel / 4 * 4 + cpl) ∧
          (d.Conforming ∨ sel % 4 ≤ cpl ∧ d.dpl = cpl) ∨
        d.segment ≠ 1 ∧ d.type ∈ [1, 9, 4, 12, 5] ∧ cpl ≤ d.dpl ∧ ∀ cs, target ≠ .code cs) := by
  unfold farTarget at goes
  by_cases null : sel < 4
  · rw [if_pos null] at goes
    cases goes
  · rw [if_neg null] at goes
    cases found : t.descriptor sel with
    | none =>
        rw [found] at goes
        cases goes
    | some d =>
        rw [found] at goes
        dsimp only at goes
        refine ⟨d, rfl, ?_⟩
        split_ifs at goes with code ring absent denied absent gate
        · refine ⟨absent, Or.inl ⟨code, (Except.ok.inj goes).symm, ?_⟩⟩
          by_cases conforming : d.Conforming
          · exact Or.inl conforming
          · refine Or.inr ?_
            by_contra outside
            exact ring (Or.inr ⟨conforming, by omega⟩)
        all_goals
          simp only [not_or, not_not] at denied
          refine ⟨absent, Or.inr ⟨denied.1, denied.2.1, by omega, fun cs same => ?_⟩⟩
          subst same
          cases Except.ok.inj goes

end Table

/-! ## Gates and events -/

/-- A gate of the interrupt descriptor table. -/
@[ext]
structure Gate where
  offset : ℕ
  selector : ℕ
  type : ℕ
  /-- Zero for a gate -/
  segment : ℕ
  dpl : ℕ
  present : ℕ
  deriving DecidableEq, Repr

/-- What the processor reads out of a word. -/
def Gate.decode (w : ℕ) : Gate where
  offset := field 0 16 w + 2 ^ 16 * field 48 16 w
  selector := field 16 16 w
  type := field 40 4 w
  segment := field 44 1 w
  dpl := field 45 2 w
  present := field 47 1 w

/-- Where an event comes from. -/
inductive Origin where
  /-- A signal from outside the processor -/
  | external
  /-- A fault of an instruction -/
  | exception
  /-- The instruction `int` -/
  | software
  deriving DecidableEq, Repr

/-- The low bit of an error code says that an instruction was not at fault. -/
def Origin.ext : Origin → ℕ
  | .software => 0
  | .external | .exception => 1

/-- How an event is entered. -/
structure Entry where
  eip : ℕ
  cs : ℕ
  /-- The new privilege level -/
  level : ℕ
  /-- Interrupts are off in the handler -/
  masks : Bool
  deriving DecidableEq, Repr

/-- **The checks before an event is entered** through a 32-bit interrupt or trap gate.
Task gates and 16-bit gates are not followed. -/
def enter (idt gdt : Table) (cpl vector : ℕ) (origin : Origin) : Except Fault (Option Entry) :=
  let error := vector * 8 + 2 + origin.ext
  if idt.limit < vector * 8 + 7 then .error (.generalProtection error)
  else
    let gate := Gate.decode (idt.entry vector)
    if gate.segment ≠ 0 ∨ gate.type ∉ [5, 6, 7, 14, 15] then .error (.generalProtection error)
    else if origin = .software ∧ gate.dpl < cpl then .error (.generalProtection error)
    else if gate.present = 0 then .error (.notPresent error)
    else if gate.type ∉ [14, 15] then .ok none
    else if gate.selector < 4 then .error (.generalProtection origin.ext)
    else
      match gdt.descriptor gate.selector with
      | none => .error (.generalProtection (errorCode gate.selector + origin.ext))
      | some d =>
          if ¬ d.Code ∨ cpl < d.dpl then
            .error (.generalProtection (errorCode gate.selector + origin.ext))
          else if d.present = 0 then
            .error (.notPresent (errorCode gate.selector + origin.ext))
          else
            -- A conforming segment keeps the level of its caller.
            let level := if d.Conforming then cpl else d.dpl
            .ok (some ⟨gate.offset, gate.selector / 4 * 4 + level, level, gate.type = 14⟩)

/-- `ss` is loaded from the task for an event that comes from an outer ring. -/
def Table.loadInnerStack (t : Table) (level sel : ℕ) (origin : Origin) : Except Fault Descriptor :=
  if sel < 4 then .error (.invalidTss origin.ext)
  else
    match t.descriptor sel with
    | none => .error (.invalidTss (errorCode sel + origin.ext))
    | some d =>
        if sel % 4 ≠ level ∨ ¬ d.Writable ∨ d.dpl ≠ level then
          .error (.invalidTss (errorCode sel + origin.ext))
        else if d.present = 0 then .error (.stack (errorCode sel + origin.ext))
        else .ok d

end X86
