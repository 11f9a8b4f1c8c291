import TrashOS.Lib.Loop
import TrashOS.Int.Gdt

/-!
# `int.c`: the interrupt descriptor table

`idt_descriptor` fills a structure of bit fields whose `type` covers eight bits, three of
them reserved and one the mark of a system segment; the processor reads the four between.
`int_init_vectors` gives each of the 256 vectors an interrupt gate into the code segment
of ring 0, for ring 0 only, and `int_load_idt` the exact limit.
-/

namespace TrashOS

open X86 BitFields

/-! ## Handlers -/

/-- The handlers in the table, under their names without `int_handle`. -/
inductive Handler where
  | divideError
  | debug
  | nmiInterrupt
  | breakpoint
  | overflow
  | boundRangeExceeded
  | invalidOpcode
  | deviceNotAvailable
  | doubleFault
  | coprocessorSegmentOverrun
  | invalidTss
  | segmentNotPresent
  | stackFault
  | generalProtection
  | pageFault
  | exception
  | procSwitch
  | unknown
  deriving DecidableEq, Repr

/-- The handlers with a second parameter, for which the processor has to push an error
code. -/
def Handler.takesError : Handler → Bool
  | .doubleFault | .invalidTss | .segmentNotPresent | .stackFault | .generalProtection
  | .pageFault | .exception => true
  | _ => false

/-- `IDT_SIZE` -/
def idtSize : ℕ := 256

/-- `IDT_VECTOR_TIMER` -/
def idtVectorTimer : ℕ := 65

/-- `IDT_GATE_INTERRUPT32` -/
def idtGateInterrupt32 : ℕ := 0x70

/-- The `switch` of `int_init_vectors`. -/
def vectorHandler : ℕ → Handler
  | 0 => .divideError
  | 1 => .debug
  | 2 => .nmiInterrupt
  | 3 => .breakpoint
  | 4 => .overflow
  | 5 => .boundRangeExceeded
  | 6 => .invalidOpcode
  | 7 => .deviceNotAvailable
  | 8 => .doubleFault
  | 9 => .coprocessorSegmentOverrun
  | 10 => .invalidTss
  | 11 => .segmentNotPresent
  | 12 => .stackFault
  | 13 => .generalProtection
  | 14 => .pageFault
  | 17 => .exception
  | 65 => .procSwitch
  | _ => .unknown

/-! ## `int_init` -/

/-- `idt_descriptor` -/
def idtDescriptor (handler sel type dpl : ℕ) : ℕ :=
  pack [16, 16, 5, 8, 2, 1, 16] [handler &&& 0xffff, sel, 0, type, dpl, 1, handler >>> 16]

/-- The gate of a vector, with the handlers at the addresses `code`. -/
def vectorGate (code : Handler → ℕ) (i : ℕ) : ℕ :=
  idtDescriptor (code (vectorHandler i)) gdtSelCodePl0 idtGateInterrupt32 0

/-- `idt[i] = word` -/
def storeIdt (idt i word : ℕ) (p : Processor) : Processor :=
  { p with memory := Function.update p.memory (idt + 8 * i) word }

/-- `int_init_vectors` -/
def intInitVectors (code : Handler → ℕ) (idt : ℕ) : Prog Processor Fault Unit :=
  Prog.update (Loop.upto idtSize fun i => storeIdt idt i (vectorGate code i))

/-- `int_load_idt` -/
def intLoadIdt (idt : ℕ) : Prog Processor Fault Unit :=
  let idtr := idt <<< 16 ||| (8 * idtSize - 1)
  Prog.update fun p => { p with idt :=
    { entry := fun i => p.memory (field 16 32 idtr + 8 * i), limit := field 0 16 idtr } }

/-- `int_init` -/
def intInit (code : Handler → ℕ) (idt : ℕ) : Prog Processor Fault Unit := do
  intInitVectors code idt
  intLoadIdt idt

/-! ## The gates -/

variable {code : Handler → ℕ} {handler sel type dpl idt i vector : ℕ} {p : Processor}

/-- **The processor reads the gate that was asked for**; it does not see the outer bits of
`type`. -/
theorem decode_idtDescriptor (address : handler < 2 ^ 32) :
    Gate.decode (idtDescriptor handler sel type dpl) =
      ⟨handler, sel % 2 ^ 16, type / 2 ^ 3 % 2 ^ 4, type / 2 ^ 7 % 2, dpl % 4, 1⟩ := by
  have low : handler &&& 0xffff = handler % 2 ^ 16 := Word32.and_low _ 16
  have high : handler >>> 16 = handler / 2 ^ 16 := Nat.shiftRight_eq_div_pow _ _
  have both : handler % 2 ^ 16 % 2 ^ 16 + 2 ^ 16 * (handler / 2 ^ 16 % 2 ^ 16) = handler := by
    omega
  unfold Gate.decode idtDescriptor
  rw [low, high]
  simp (disch := decide) only [field_pack_tail, field_pack_inside, Nat.reduceSub]
  simp only [field, pow_zero, Nat.div_one, both, pow_one]
  rfl

/-- The table of `int_init`, with any memory behind it. -/
def idtTable (code : Handler → ℕ) (memory : ℕ → ℕ) : Table where
  entry i := if i < idtSize then vectorGate code i else memory i
  limit := 8 * idtSize - 1

/-- One gate for each vector. -/
theorem idtTable_gate (address : ∀ h, code h < 2 ^ 32) (memory : ℕ → ℕ)
    (inside : vector < idtSize) :
    Gate.decode ((idtTable code memory).entry vector) =
      ⟨code (vectorHandler vector), gdtSelCodePl0, 14, 0, 0, 1⟩ := by
  unfold idtTable vectorGate
  dsimp only
  rw [if_pos inside, decode_idtDescriptor (address _)]
  rfl

/-- The gates of the first `n` vectors are stored. -/
def Stored (code : Handler → ℕ) (idt : ℕ) (p : Processor) (n : ℕ) (q : Processor) : Prop :=
  ∃ memory, q = { p with memory := memory } ∧
    ∀ i, memory (idt + 8 * i) = if i < n then vectorGate code i else p.memory (idt + 8 * i)

theorem Stored.next {n : ℕ} {q : Processor} (stored : Stored code idt p n q) :
    Stored code idt p (n + 1) (storeIdt idt n (vectorGate code n) q) := by
  obtain ⟨memory, rfl, words⟩ := stored
  refine ⟨_, rfl, fun i => ?_⟩
  have same : idt + 8 * i = idt + 8 * n ↔ i = n := by omega
  simp only [Function.update_apply, same, words]
  split_ifs with here before before
  · rw [here]
  · omega
  · rfl
  · omega
  · omega
  · rfl

/-- The loop stores one gate after the other. -/
theorem intInitVectors_run (code : Handler → ℕ) (idt : ℕ) (p : Processor) :
    ∃ memory, intInitVectors code idt p = .ok ((), { p with memory := memory }) ∧
      ∀ i, memory (idt + 8 * i) =
        if i < idtSize then vectorGate code i else p.memory (idt + 8 * i) := by
  have start : Stored code idt p 0 p :=
    ⟨p.memory, rfl, fun i => (if_neg i.not_lt_zero).symm⟩
  obtain ⟨memory, stored, words⟩ := Loop.upto_invariant idtSize start fun _ _ _ => Stored.next
  exact ⟨memory, congrArg (fun q => Except.ok ((), q)) stored, words⟩

/-- What the register of the table gets. -/
theorem idtr_fields (address : idt < 2 ^ 32) :
    field 0 16 (idt <<< 16 ||| (8 * idtSize - 1)) = 8 * idtSize - 1 ∧
      field 16 32 (idt <<< 16 ||| (8 * idtSize - 1)) = idt := by
  rw [Nat.shiftLeft_eq, or_eq_add _ (by decide : 8 * idtSize - 1 < 2 ^ 16)]
  unfold field idtSize
  constructor <;> omega

/-- **`int_init`** loads the table of all vectors. -/
theorem intInit_run (code : Handler → ℕ) (address : idt < 2 ^ 32) (p : Processor) :
    ∃ memory, intInit code idt p = .ok ((), { p with
      memory := memory
      idt := idtTable code fun i => p.memory (idt + 8 * i) }) := by
  obtain ⟨memory, run, words⟩ := intInitVectors_run code idt p
  obtain ⟨limit, start⟩ := idtr_fields address
  refine ⟨memory, ?_⟩
  unfold intInit intLoadIdt
  rw [Prog.bind_of_ok run]
  change Except.ok ((), _) = _
  simp only [limit, start, words]
  rfl

end TrashOS
