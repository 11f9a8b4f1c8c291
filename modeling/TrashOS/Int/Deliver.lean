import TrashOS.Int.Idt

/-!
# Entering the handlers

What the processor does with a signal, a fault or the instruction `int` under the tables
of `gdt_init` and `int_init`, in any ring and for any vector:

* Signals and faults enter the handler of their vector in ring 0, on the stack of the
  `TSS` if they come from another ring (`deliver_run`).
* The instruction `int` does so in ring 0 only; elsewhere, whatever its operand, it ends
  in the handler of general protection faults (`softwareInterrupt_user`).
* A handler finds the interrupted `eip`, `cs` and `eflags` where its parameters are, if it
  takes an error code exactly when one was pushed (`entered_frame`).
-/

namespace TrashOS

open X86

variable {code : Handler → ℕ} {tss idt gdt vector : ℕ} {m : Machine} {origin : Origin}
  {error : Option ℕ} {behind behind' : ℕ → ℕ} {junk : Callee → Clobber}

/-! ## Delivery -/

/-- What the processor consults. -/
structure Tables where
  gdt : Table
  idt : Table
  /-- The stack segment of ring 0 in the `TSS` -/
  ss0 : Selector

/-- The tables of the processor. -/
def Processor.tables (p : Processor) : Tables := ⟨p.gdt, p.idt, p.ss0⟩

/-- `eflags` in a handler: `TF`, `NT`, `RF` and `VM` are clear, and `IF` behind an
interrupt gate. -/
def entryFlags (masks : Bool) (eflags : ℕ) : ℕ :=
  eflags &&& Word32.not (0x34100 ||| if masks then 0x200 else 0)

/-- The stack of an inner ring, with the old one pushed.  The kernel has a code segment
for ring 0 only, so the `TSS` is asked for no other. -/
def Machine.innerStack (tables : Tables) (m : Machine) (level : ℕ) (origin : Origin) :
    Except Fault Machine :=
  match tables.gdt.loadInnerStack level tables.ss0 origin with
  | .error fault => .error fault
  | .ok _ => .ok (Machine.push (Machine.push
      { m with cpu := { (m.cpu.setReg .esp m.sched.esp0) with ss := tables.ss0 } } m.cpu.ss) m.esp)

/-- An error code is pushed. -/
def Machine.pushError (m : Machine) : Option ℕ → Machine
  | none => m
  | some error => m.push error

/-- The handler is entered. -/
def Machine.enterAt (m : Machine) (entry : Entry) : Machine :=
  { m with cpu := { m.cpu with
      cs := selectorOf entry.cs
      eip := entry.eip
      eflags := entryFlags entry.masks m.cpu.eflags } }

/-- **An event is delivered**, with an error code or without one. -/
def Machine.deliver (tables : Tables) (m : Machine) (vector : ℕ) (origin : Origin)
    (error : Option ℕ) : Except Fault (Option Machine) :=
  match enter tables.idt tables.gdt (ring m.cpu.cs) vector origin with
  | .error fault => .error fault
  | .ok none => .ok none
  | .ok (some entry) =>
      match (if entry.level = ring m.cpu.cs then .ok m
        else m.innerStack tables entry.level origin : Except Fault Machine) with
      | .error fault => .error fault
      | .ok m₁ => .ok (some ((((((m₁.push m.cpu.eflags).push m.cpu.cs).push m.cpu.eip).pushError
          error).enterAt entry)))

/-- The vector of a fault. -/
def faultVector : Fault → ℕ
  | .invalidTss _ => 10
  | .notPresent _ => 11
  | .stack _ => 12
  | .generalProtection _ => 13

/-- The error code of a fault. -/
def faultCode : Fault → ℕ
  | .invalidTss code | .notPresent code | .stack code | .generalProtection code => code

/-- The instruction `int`. -/
def Machine.softwareInterrupt (tables : Tables) (m : Machine) (vector : ℕ) :
    Except Fault (Option Machine) :=
  match m.deliver tables vector .software none with
  | .ok entered => .ok entered
  | .error fault => m.deliver tables (faultVector fault) .exception (some (faultCode fault))

/-- The vectors whose faults come with an error code. -/
def pushesErrorCode (vector : ℕ) : Bool := vector ∈ [8, 10, 11, 12, 13, 14, 17]

/-! ## The tables of the kernel -/

/-- What `gdt_init` and `int_init` leave, with any memory behind the tables. -/
def loadedTables (code : Handler → ℕ) (tss : ℕ) (behind behind' : ℕ → ℕ) : Tables :=
  ⟨gdtTable tss behind, idtTable code behind', gdtSelDataPl0⟩

/-- The machine with another `eip` and other `eflags`. -/
def Machine.at (m : Machine) (eip eflags : ℕ) : Machine :=
  { m with cpu := { m.cpu with eip := eip, eflags := eflags } }

@[simp] theorem at_esp (m : Machine) (eip eflags : ℕ) : (m.at eip eflags).esp = m.esp := rfl

@[simp] theorem at_stack (m : Machine) (eip eflags : ℕ) :
    (m.at eip eflags).stack = m.stack := rfl

/-- The machine in the handler at `address`. -/
def Machine.entered (m : Machine) (address : ℕ) (error : Option ℕ) : Machine :=
  (m.interrupt.pushError error).at address (entryFlags true m.cpu.eflags)

theorem gdtTable_code (address : tss < 2 ^ 32) (memory : ℕ → ℕ) :
    (gdtTable tss memory).descriptor gdtSelCodePl0 = some (flatSegment 10 0) :=
  gdtTable_flat (i := 1) address memory rfl rfl rfl

/-- **The checks** before a handler is entered. -/
theorem enter_run (handlers : ∀ h, code h < 2 ^ 32) (address : tss < 2 ^ 32)
    (inside : vector < idtSize) (cpl : ℕ) :
    enter (idtTable code behind') (gdtTable tss behind) cpl vector origin =
      if origin = .software ∧ 0 < cpl then .error (.generalProtection (vector * 8 + 2))
      else .ok (some ⟨code (vectorHandler vector), gdtSelCodePl0, 0, true⟩) := by
  have gate := idtTable_gate handlers behind' inside
  have limit : ¬ (idtTable code behind').limit < vector * 8 + 7 := by
    change ¬ 2047 < vector * 8 + 7
    change vector < 256 at inside
    omega
  have notConforming : ¬ (flatSegment 10 0).Conforming :=
    flatSegment_not_conforming (Or.inl rfl)
  have readable : ¬ (¬ (flatSegment 10 0).Code ∨ cpl < (flatSegment 10 0).dpl) := by
    rintro (data | inner)
    · exact data (flatSegment_code 0)
    · exact absurd inner cpl.not_lt_zero
  unfold enter
  dsimp only
  rw [if_neg limit, gate]
  dsimp only
  rw [if_neg (by decide)]
  by_cases denied : origin = .software ∧ 0 < cpl
  · rw [if_pos denied, if_pos denied, denied.1]
    rfl
  · rw [if_neg denied, if_neg denied, if_neg Nat.one_ne_zero, if_neg (by decide),
      if_neg (by decide), gdtTable_code address]
    dsimp only
    rw [if_neg readable, if_neg (show ¬ (flatSegment 10 0).present = 0 from Nat.one_ne_zero),
      if_neg notConforming]
    rfl

/-- The stack segment of ring 0 can be loaded. -/
theorem gdtTable_loadInnerStack (address : tss < 2 ^ 32) (memory : ℕ → ℕ) (origin : Origin) :
    (gdtTable tss memory).loadInnerStack 0 gdtSelDataPl0 origin = .ok (flatSegment 2 0) := by
  have found : (gdtTable tss memory).descriptor gdtSelDataPl0 = some (flatSegment 2 0) :=
    gdtTable_flat (i := 2) address memory rfl rfl rfl
  have writable : (flatSegment 2 0).Writable := ⟨rfl, by change 2 < 8 ∧ 2 / 2 % 2 = 1; decide⟩
  unfold Table.loadInnerStack
  rw [if_neg (by decide), found]
  dsimp only
  rw [if_neg (by
    rintro (rpl | readOnly | dpl)
    · exact rpl rfl
    · exact readOnly writable
    · exact dpl rfl), if_neg (show ¬ (flatSegment 2 0).present = 0 from Nat.one_ne_zero)]

@[simp] theorem push_eflags (m : Machine) (word : ℕ) :
    (m.push word).cpu.eflags = m.cpu.eflags := rfl

theorem push_stack (m : Machine) (word : ℕ) :
    (m.push word).stack = Function.update m.stack (Word32.sub m.esp 4) word := rfl

theorem push_esp (m : Machine) (word : ℕ) : (m.push word).esp = Word32.sub m.esp 4 := by
  unfold Machine.push
  rw [esp_mk, setReg_reg, if_pos rfl]

/-- The error code is pushed before `cs` changes or after it. -/
theorem pushError_enterAt (m : Machine) (error : Option ℕ) (address level : ℕ) (cs : Selector) :
    (m.pushError error).enterAt ⟨address, cs, level, true⟩ =
      ((m.setCs cs).pushError error).at address (entryFlags true m.cpu.eflags) := by
  unfold Machine.enterAt
  rw [selectorOf_val]
  cases error <;> rfl

theorem setReg_eflags (cpu : Cpu) (r : Reg) (v : ℕ) : (cpu.setReg r v).eflags = cpu.eflags := rfl

/-- The handler is entered on the same stack. -/
theorem entered_kernel (kernel : ring m.cpu.cs = 0) (error : Option ℕ) (address level : ℕ) :
    ((((m.push m.cpu.eflags).push m.cpu.cs).push m.cpu.eip).pushError error).enterAt
      ⟨address, gdtSelCodePl0, level, true⟩ = m.entered address error := by
  unfold Machine.entered Machine.interrupt Machine.switchStack
  rw [if_pos kernel, pushError_enterAt]
  simp only [push_eflags]

/-- The handler is entered on the stack of the `TSS`. -/
theorem entered_user (user : ring m.cpu.cs ≠ 0) (error : Option ℕ) (address level : ℕ) :
    (((((Machine.push (Machine.push { m with
        cpu := { (m.cpu.setReg .esp m.sched.esp0) with ss := gdtSelDataPl0 } } m.cpu.ss)
        m.esp).push m.cpu.eflags).push m.cpu.cs).push m.cpu.eip).pushError error).enterAt
      ⟨address, gdtSelCodePl0, level, true⟩ = m.entered address error := by
  unfold Machine.entered Machine.interrupt Machine.switchStack
  rw [if_neg user, pushError_enterAt]
  simp only [push_eflags, setReg_eflags]

/-- **A signal or a fault** enters the handler of its vector. -/
theorem deliver_run (handlers : ∀ h, code h < 2 ^ 32) (address : tss < 2 ^ 32)
    (inside : vector < idtSize) (allowed : origin = .software → ring m.cpu.cs = 0) :
    m.deliver (loadedTables code tss behind behind') vector origin error =
      .ok (some (m.entered (code (vectorHandler vector)) error)) := by
  have passes : ¬ (origin = .software ∧ 0 < ring m.cpu.cs) := fun both =>
    both.2.ne' (allowed both.1)
  unfold Machine.deliver loadedTables
  dsimp only
  rw [enter_run handlers address inside, if_neg passes]
  dsimp only
  by_cases kernel : ring m.cpu.cs = 0
  · rw [if_pos kernel.symm]
    dsimp only
    rw [entered_kernel kernel]
  · rw [if_neg fun same => kernel same.symm]
    unfold Machine.innerStack
    dsimp only
    rw [gdtTable_loadInnerStack address]
    dsimp only
    rw [entered_user kernel]

/-- **The instruction `int` in an outer ring** ends in the handler of general protection
faults, which is told the vector. -/
theorem softwareInterrupt_user (handlers : ∀ h, code h < 2 ^ 32) (address : tss < 2 ^ 32)
    (inside : vector < idtSize) (user : ring m.cpu.cs ≠ 0) :
    m.softwareInterrupt (loadedTables code tss behind behind') vector =
      .ok (some (m.entered (code .generalProtection) (some (vector * 8 + 2)))) := by
  have refused : m.deliver (loadedTables code tss behind behind') vector .software none =
      .error (.generalProtection (vector * 8 + 2)) := by
    unfold Machine.deliver loadedTables
    dsimp only
    rw [enter_run handlers address inside, if_pos ⟨rfl, Nat.pos_of_ne_zero user⟩]
  unfold Machine.softwareInterrupt
  rw [refused]
  exact deliver_run handlers address (by decide : 13 < idtSize) nofun

/-! ## What a handler finds -/

/-- `interrupt_frame_t`, without the words of a change of ring -/
structure InterruptFrame where
  ip : ℕ
  cs : ℕ
  flags : ℕ
  deriving DecidableEq, Repr

/-- `*ctxt`, and `error_code` for a handler with this parameter: the compiler expects the
frame at the stack pointer, or behind the error code. -/
def Handler.parameters (h : Handler) (m : Machine) : InterruptFrame × Option ℕ :=
  let ctxt := if h.takesError then Word32.add m.esp 4 else m.esp
  (⟨m.stack ctxt, m.stack (Word32.add ctxt 4), m.stack (Word32.add ctxt 8)⟩,
    if h.takesError then some (m.stack m.esp) else none)

theorem interrupt_esp (m : Machine) : m.interrupt.esp = Word32.sub m.frameEnd 20 := by
  obtain ⟨S, entry, -⟩ := interrupt_entry m
  rw [entry, esp_mk, handlerCpu_esp]

/-- **A handler finds the interrupted code** where its parameters are. -/
theorem entered_frame (h : Handler) (address : ℕ) (same : error.isSome = h.takesError) :
    h.parameters (m.entered address error) =
      (⟨m.cpu.eip, m.cpu.cs, m.cpu.eflags⟩, error) := by
  have esp := interrupt_esp m
  obtain ⟨S, entry, -, -, eflags, cs, eip, -⟩ := interrupt_stack m
  have stack : m.interrupt.stack = S := by rw [entry]
  unfold Handler.parameters Machine.entered
  rw [← same, at_esp, at_stack]
  cases error with
  | none =>
      unfold Machine.pushError
      simp (disch := omega) only [esp, stack, Option.isSome_none, Bool.false_eq_true, if_false,
        Word32.add_sub, Nat.reduceSub, eip, cs, eflags]
  | some error =>
      -- The error code lies below the frame.
      unfold Machine.pushError
      simp (disch := omega) only [push_esp, push_stack, esp, stack, Option.isSome_some, if_true,
        Word32.sub_sub, Word32.add_sub, Nat.reduceAdd, Nat.reduceSub, Function.update_apply,
        Word32.sub_left_inj, Nat.reduceEqDiff, if_false, eip, cs, eflags]

/-! ## The timer -/

/-- The result of a program with another `eip` and other `eflags`. -/
def resultAt (eip eflags : ℕ) : Except Stop (Unit × Machine) → Except Stop (Unit × Machine)
  | .ok ((), m) => .ok ((), m.at eip eflags)
  | .error stop => .error stop

theorem procNextCall_at (m : Machine) (eip eflags : ℕ) :
    procNextCall (m.at eip eflags) = resultAt eip eflags (procNextCall m) := by
  have sched : (m.at eip eflags).sched = m.sched := rfl
  unfold procNextCall
  rw [sched]
  cases procNext m.sched with
  | ok result => rfl
  | error stop => rfl

/-- The functions the handler calls do not look at `eip` and `eflags`. -/
theorem body_at (f : Callee) (m : Machine) (eip eflags : ℕ) :
    f.body (m.at eip eflags) = resultAt eip eflags (f.body m) := by
  cases f with
  | procNext => exact procNextCall_at m eip eflags
  | _ => rfl

variable (junk) in
/-- No instruction but `iret` looks at `eip` and `eflags`, or changes them. -/
theorem exec_at (i : Instr) (other : i ≠ .iret) (m : Machine) (eip eflags : ℕ) :
    i.exec junk (m.at eip eflags) = resultAt eip eflags (i.exec junk m) := by
  cases i with
  | iret => exact absurd rfl other
  | call f =>
      have same := body_at f m eip eflags
      change (f.body >>= fun _ => Prog.update fun m => m.clobbered (junk f)) _ =
        resultAt eip eflags ((f.body >>= fun _ => Prog.update fun m => m.clobbered (junk f)) m)
      cases run : f.body m with
      | error stop =>
          rw [run] at same
          rw [Prog.bind_of_error run, Prog.bind_of_error same]
          rfl
      | ok result =>
          rw [run] at same
          rw [Prog.bind_of_ok run, Prog.bind_of_ok same]
          rfl
  | _ => rfl

variable (junk) in
/-- `iret` brings its own. -/
theorem execAll_at (is : List Instr) (others : .iret ∉ is) (m : Machine) (eip eflags : ℕ) :
    execAll junk (is ++ [.iret]) (m.at eip eflags) = execAll junk (is ++ [.iret]) m := by
  induction is generalizing m with
  | nil => rfl
  | cons i is ih =>
      rw [List.mem_cons, not_or] at others
      have same := exec_at junk i (fun iret => others.1 iret.symm) m eip eflags
      change (i.exec junk >>= fun _ => execAll junk (is ++ [.iret])) _ =
        (i.exec junk >>= fun _ => execAll junk (is ++ [.iret])) m
      cases run : i.exec junk m with
      | error stop =>
          rw [run] at same
          rw [Prog.bind_of_error run, Prog.bind_of_error same]
      | ok result =>
          rw [run] at same
          rw [Prog.bind_of_ok run, Prog.bind_of_ok same]
          exact ih others.2 result.2

/-- **The timer signal** runs the handler of the process switch as `tick` has it. -/
theorem entered_tick (m : Machine) (address : ℕ) :
    execAll junk intHandleProcSwitch (m.entered address none) = tick junk m := by
  have code : intHandleProcSwitch = intHandleProcSwitch.dropLast ++ [.iret] := rfl
  unfold Machine.entered tick
  rw [code]
  exact execAll_at junk _ (by decide) m.interrupt _ _

/-! ## The boot -/

/-- What becomes of every event under the tables of the kernel. -/
theorem softwareInterrupt_run (handlers : ∀ h, code h < 2 ^ 32) (address : tss < 2 ^ 32)
    (inside : vector < idtSize) :
    m.softwareInterrupt (loadedTables code tss behind behind') vector = .ok (some
      (if ring m.cpu.cs = 0 then m.entered (code (vectorHandler vector)) none
        else m.entered (code .generalProtection) (some (vector * 8 + 2)))) := by
  split_ifs with kernel
  · have run : m.deliver (loadedTables code tss behind behind') vector .software none =
        .ok (some (m.entered (code (vectorHandler vector)) none)) :=
      deliver_run handlers address inside fun _ => kernel
    unfold Machine.softwareInterrupt
    rw [run]
  · exact softwareInterrupt_user handlers address inside kernel

/-- The handlers of the faults have the parameters that the processor pushes. -/
theorem vectorHandler_takesError (fault : vector ≤ 20) :
    (vectorHandler vector).takesError = pushesErrorCode vector := by
  interval_cases vector <;> rfl

/-- `gdt_init` and `int_init` one after the other. -/
theorem boot_run {p : Processor} (kernel : ring p.cpu.cs = 0) (gdtAddress : gdt < 2 ^ 32)
    (idtAddress : idt < 2 ^ 32) (address : tss < 2 ^ 32) (code : Handler → ℕ) :
    ∃ memory behind behind', (do
        gdtInit gdt tss
        intInit code idt : Prog Processor Fault Unit) p = .ok ((),
      { cpu := ⟨p.cpu.reg, fun _ => gdtSelDataPl0, p.cpu.eip, gdtSelCodePl0, p.cpu.eflags,
          gdtSelDataPl0⟩
        memory := memory
        gdt := gdtTable tss behind
        idt := idtTable code behind'
        tr := gdtSelTssPl3
        ss0 := gdtSelDataPl0
        esp0 := 0 }) := by
  obtain ⟨memory, gdtRun⟩ := gdtInit_run kernel gdtAddress address
  obtain ⟨memory', idtRun⟩ := intInit_run code idtAddress _
  exact ⟨_, _, _, (Prog.bind_of_ok gdtRun).trans idtRun⟩

/-- **Every event finds its handler.**  Once `gdt_init` and `int_init` have run, whatever
the memory behind the tables holds, for every machine in any ring and every vector:
signals and faults enter the handler of the vector in ring 0; the instruction `int` does
so in ring 0, and elsewhere raises a general protection fault that names the vector; the
handlers of the faults take an error code exactly when there is one, and find the
interrupted code; and the timer runs the process switch. -/
theorem kernel_interrupts {p : Processor} (kernel : ring p.cpu.cs = 0) (gdtAddress : gdt < 2 ^ 32)
    (idtAddress : idt < 2 ^ 32) (address : tss < 2 ^ 32) (handlers : ∀ h, code h < 2 ^ 32) :
    ∃ p', (do
        gdtInit gdt tss
        intInit code idt : Prog Processor Fault Unit) p = .ok ((), p') ∧
      ∀ m : Machine, ∀ vector < idtSize,
        (∀ error, m.deliver p'.tables vector .external error =
            .ok (some (m.entered (code (vectorHandler vector)) error)) ∧
          m.deliver p'.tables vector .exception error =
            .ok (some (m.entered (code (vectorHandler vector)) error))) ∧
        m.softwareInterrupt p'.tables vector = .ok (some
          (if ring m.cpu.cs = 0 then m.entered (code (vectorHandler vector)) none
            else m.entered (code .generalProtection) (some (vector * 8 + 2)))) ∧
        (vector ≤ 20 → (vectorHandler vector).takesError = pushesErrorCode vector) ∧
        (∀ error, error.isSome = (vectorHandler vector).takesError →
          (vectorHandler vector).parameters (m.entered (code (vectorHandler vector)) error) =
            (⟨m.cpu.eip, m.cpu.cs, m.cpu.eflags⟩, error)) ∧
        ∀ junk, execAll junk intHandleProcSwitch
          (m.entered (code (vectorHandler idtVectorTimer)) none) = tick junk m := by
  obtain ⟨memory, behind, behind', run⟩ := boot_run kernel gdtAddress idtAddress address code
  exact ⟨_, run, fun m vector inside =>
    ⟨fun error => ⟨deliver_run handlers address inside nofun,
      deliver_run handlers address inside nofun⟩,
      softwareInterrupt_run handlers address inside, vectorHandler_takesError,
      fun error same => entered_frame _ _ same, fun junk => entered_tick m _⟩⟩

/-- Handlers at two addresses. -/
def sampleCode (h : Handler) : ℕ := if h.takesError then 0xE0001100 else 0xE0001000

theorem sampleCode_lt (h : Handler) : sampleCode h < 2 ^ 32 := by
  cases h <;> decide

theorem kernel_interrupts_loader :
    ∃ p', (do
        gdtInit 0xE0005000 0xE0005040
        intInit sampleCode 0xE0006000 : Prog Processor Fault Unit) loaderProcessor =
          .ok ((), p') ∧
      ∀ m : Machine, ∀ vector < idtSize,
        (∀ error, m.deliver p'.tables vector .external error =
            .ok (some (m.entered (sampleCode (vectorHandler vector)) error)) ∧
          m.deliver p'.tables vector .exception error =
            .ok (some (m.entered (sampleCode (vectorHandler vector)) error))) ∧
        m.softwareInterrupt p'.tables vector = .ok (some
          (if ring m.cpu.cs = 0 then m.entered (sampleCode (vectorHandler vector)) none
            else m.entered (sampleCode .generalProtection) (some (vector * 8 + 2)))) ∧
        (vector ≤ 20 → (vectorHandler vector).takesError = pushesErrorCode vector) ∧
        (∀ error, error.isSome = (vectorHandler vector).takesError →
          (vectorHandler vector).parameters
              (m.entered (sampleCode (vectorHandler vector)) error) =
            (⟨m.cpu.eip, m.cpu.cs, m.cpu.eflags⟩, error)) ∧
        ∀ junk, execAll junk intHandleProcSwitch
          (m.entered (sampleCode (vectorHandler idtVectorTimer)) none) = tick junk m :=
  kernel_interrupts (by decide) (by decide) (by decide) (by decide) sampleCode_lt

end TrashOS
