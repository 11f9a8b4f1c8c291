import TrashOS.Lib.Word
import TrashOS.Proc.Sched

/-!
# `int_asm.s`: the timer interrupt

The processor as far as an interrupt is concerned, and `int_handle_proc_switch`
as the list of its instructions, every one of which addresses the stack relative
to `%esp`.

* **The stack** is a memory of words indexed by byte address, and holds what is
  supervisor memory: code in ring 3 cannot write it.  Stack addresses wrap.
* **Interrupts.**  The processor pushes `ss` and `esp` only when it enters ring 0
  from another ring, in which case it changes to the stack of `TSS.esp0`; `iret`
  pops them only when it returns to an outer ring.
* **C functions** called by the handler do what `proc.c` says.  Besides, the
  calling convention lets them change `eax`, `ecx`, `edx` and every word below
  the stack pointer (`Clobber`).  They preserve the stack slots of the caller.

Flags that arithmetic sets are not modelled: `iret` replaces `eflags`.
-/

namespace TrashOS

/-! ## Registers -/

/-- The general registers. -/
inductive Reg where
  | eax
  | ecx
  | edx
  | ebx
  | esp
  | ebp
  | esi
  | edi
  deriving DecidableEq, Repr

/-- The data segment registers the handler saves. -/
inductive Seg where
  | ds
  | es
  | fs
  | gs
  deriving DecidableEq, Repr

/-- A segment selector. -/
abbrev Selector : Type := Fin (2 ^ 16)

/-- The registers of the processor. -/
@[ext]
structure Cpu where
  reg : Reg → ℕ
  seg : Seg → Selector
  eip : ℕ
  cs : Selector
  eflags : ℕ
  ss : Selector

/-- The privilege level that a selector names in its low bits. -/
def ring (selector : ℕ) : ℕ := selector % 4

/-- The low half of a word, as a selector. -/
def selectorOf (word : ℕ) : Selector := ⟨word % 2 ^ 16, Nat.mod_lt _ (by decide)⟩

@[simp] theorem selectorOf_val (selector : Selector) : selectorOf selector = selector := by
  apply Fin.ext
  exact Nat.mod_eq_of_lt selector.isLt

@[simp] theorem ring_selectorOf (word : ℕ) : ring (selectorOf word) = ring word := by
  change word % 2 ^ 16 % 4 = word % 4
  omega

/-- `cpu.reg r` is set to `v`. -/
def Cpu.setReg (cpu : Cpu) (r : Reg) (v : ℕ) : Cpu :=
  { cpu with reg := Function.update cpu.reg r v }

/-- `cpu.seg r` is set to `v`. -/
def Cpu.setSeg (cpu : Cpu) (r : Seg) (v : Selector) : Cpu :=
  { cpu with seg := Function.update cpu.seg r v }

/-! ## The machine -/

/-- The processor, the words of supervisor memory, and the state of the
scheduler. -/
structure Machine where
  cpu : Cpu
  stack : ℕ → ℕ
  sched : Sched

/-- The stack pointer. -/
def Machine.esp (m : Machine) : ℕ := m.cpu.reg .esp

/-- `push word` -/
def Machine.push (m : Machine) (word : ℕ) : Machine :=
  { m with
    cpu := m.cpu.setReg .esp (Word32.sub m.esp 4)
    stack := Function.update m.stack (Word32.sub m.esp 4) word }

/-- `GDT_SEL_CODE_PL0` -/
def gdtSelCodePl0 : Selector := 0x08

/-- `GDT_SEL_DATA_PL0`, the value of `TSS.ss0` -/
def gdtSelDataPl0 : Selector := 0x10

/-- The stack on which the processor takes the interrupt: from an outer ring it
changes to the stack of the TSS and pushes the old one. -/
def Machine.switchStack (m : Machine) : Machine :=
  if ring m.cpu.cs = 0 then m
  else
    Machine.push (Machine.push { m with
      cpu := { (m.cpu.setReg .esp m.sched.esp0) with ss := gdtSelDataPl0 } } m.cpu.ss) m.esp

/-- `cs` is set. -/
def Machine.setCs (m : Machine) (cs : Selector) : Machine :=
  { m with cpu := { m.cpu with cs := cs } }

/-- What the processor does when it takes the interrupt. -/
def Machine.interrupt (m : Machine) : Machine :=
  (((m.switchStack.push m.cpu.eflags).push m.cpu.cs).push m.cpu.eip).setCs gdtSelCodePl0

/-! ## `proc_store_ctxt` and `proc_load_ctxt` -/

/-- `*ctxt` as a value. -/
def readCtxt (stack : ℕ → ℕ) (ctxt : ℕ) : ProcCtxt where
  ds := stack ctxt
  es := stack (Word32.add ctxt 4)
  fs := stack (Word32.add ctxt 8)
  gs := stack (Word32.add ctxt 12)
  eax := stack (Word32.add ctxt 16)
  ecx := stack (Word32.add ctxt 20)
  edx := stack (Word32.add ctxt 24)
  ebx := stack (Word32.add ctxt 28)
  ebp := stack (Word32.add ctxt 32)
  esi := stack (Word32.add ctxt 36)
  edi := stack (Word32.add ctxt 40)
  eip := stack (Word32.add ctxt 44)
  cs := stack (Word32.add ctxt 48)
  eflags := stack (Word32.add ctxt 52)
  esp := stack (Word32.add ctxt 56)
  ss := stack (Word32.add ctxt 60)

/-- The words of a context, in the order of its fields. -/
def ProcCtxt.words (c : ProcCtxt) : List ℕ :=
  [c.ds, c.es, c.fs, c.gs, c.eax, c.ecx, c.edx, c.ebx, c.ebp, c.esi, c.edi, c.eip, c.cs, c.eflags,
    c.esp, c.ss]

/-- Write words from an address on. -/
def writeWords (stack : ℕ → ℕ) (base : ℕ) : List ℕ → ℕ → ℕ
  | [] => stack
  | word :: words => writeWords (Function.update stack base word) (Word32.add base 4) words

/-- `proc_store_ctxt` -/
def procStoreCtxt (ctxt : ℕ) : Prog Machine Stop Unit :=
  Prog.update fun m =>
    { m with sched := { m.sched with
        procTable := Function.update m.sched.procTable m.sched.pid
          { m.sched.procTable m.sched.pid with ctxt := readCtxt m.stack ctxt } } }

/-- `proc_load_ctxt` -/
def procLoadCtxt (ctxt : ℕ) : Prog Machine Stop Unit :=
  Prog.update fun m =>
    { m with stack := writeWords m.stack ctxt (m.sched.procTable m.sched.pid).ctxt.words }

/-- `proc_next`, which works on the state of the scheduler. -/
def procNextCall : Prog Machine Stop Unit := fun m =>
  match procNext m.sched with
  | .ok ((), sched) => .ok ((), { m with sched := sched })
  | .error e => .error e

/-! ## Calls -/

/-- The C functions the handler calls. -/
inductive Callee where
  | procStoreCtxt
  | procNext
  | procLoadCtxt
  | lapicSendEoi
  deriving DecidableEq, Repr

/-- What a C function leaves in the registers and the words it may change. -/
structure Clobber where
  eax : ℕ
  ecx : ℕ
  edx : ℕ
  word : ℕ → ℕ

/-- The number of bytes below the stack pointer that a C function may write. -/
def calleeDepth : ℕ := 2 ^ 31

/-- The word at `a` lies below the stack pointer `esp`. -/
def Below (esp a : ℕ) : Prop := 0 < Word32.sub esp a ∧ Word32.sub esp a ≤ calleeDepth

instance (esp a : ℕ) : Decidable (Below esp a) :=
  inferInstanceAs (Decidable (_ ∧ _))

/-- A C function has returned. -/
def Machine.clobbered (m : Machine) (c : Clobber) : Machine :=
  { m with
    cpu := ((m.cpu.setReg .eax c.eax).setReg .ecx c.ecx).setReg .edx c.edx
    stack := fun a => if Below m.esp a then c.word a else m.stack a }

/-- The body of a C function; its argument is the word the stack pointer points
to. -/
def Callee.body : Callee → Prog Machine Stop Unit
  | .procStoreCtxt => fun m => TrashOS.procStoreCtxt (m.stack m.esp) m
  | .procNext => procNextCall
  | .procLoadCtxt => fun m => TrashOS.procLoadCtxt (m.stack m.esp) m
  | .lapicSendEoi => pure ()

/-- `call f` -/
def call (junk : Callee → Clobber) (f : Callee) : Prog Machine Stop Unit := do
  f.body
  Prog.update fun m => m.clobbered (junk f)

/-! ## Instructions -/

/-- The instructions of the handler; displacements are below `%esp`. -/
inductive Instr where
  /-- `movl %src, -disp(%esp)` -/
  | store (src : Reg) (disp : ℕ)
  /-- `movl $0, -disp(%esp)` -/
  | storeZero (disp : ℕ)
  /-- `movw %src, -disp(%esp)` -/
  | storeSeg (src : Seg) (disp : ℕ)
  /-- `leal -disp(%esp), %dst` -/
  | lea (disp : ℕ) (dst : Reg)
  /-- `subl $n, %esp` -/
  | subEsp (n : ℕ)
  /-- `addl $n, %esp` -/
  | addEsp (n : ℕ)
  /-- `call f` -/
  | call (f : Callee)
  /-- `movl -disp(%esp), %dst` -/
  | load (disp : ℕ) (dst : Reg)
  /-- `movw -disp(%esp), %dst` -/
  | loadSeg (disp : ℕ) (dst : Seg)
  /-- `iret` -/
  | iret
  deriving DecidableEq, Repr

/-- Replace the low half of a word. -/
def setLow (word : ℕ) (half : Selector) : ℕ := word / 2 ^ 16 * 2 ^ 16 + half

/-- `iret` -/
def Machine.iret (m : Machine) : Machine :=
  let cs := selectorOf (m.stack (Word32.add m.esp 4))
  let popped := { m.cpu with
    eip := m.stack m.esp
    cs := cs
    eflags := m.stack (Word32.add m.esp 8) }
  if ring m.cpu.cs < ring cs then
    { m with cpu :=
        { (popped.setReg .esp (m.stack (Word32.add m.esp 12))) with
          ss := selectorOf (m.stack (Word32.add m.esp 16)) } }
  else { m with cpu := popped.setReg .esp (Word32.add m.esp 12) }

/-- The word at `-disp(%esp)`. -/
def Machine.slot (m : Machine) (disp : ℕ) : ℕ := Word32.sub m.esp disp

/-- One instruction. -/
def Instr.exec (junk : Callee → Clobber) : Instr → Prog Machine Stop Unit
  | .store src disp => Prog.update fun m =>
      { m with stack := Function.update m.stack (m.slot disp) (m.cpu.reg src) }
  | .storeZero disp => Prog.update fun m =>
      { m with stack := Function.update m.stack (m.slot disp) 0 }
  | .storeSeg src disp => Prog.update fun m =>
      { m with
        stack := Function.update m.stack (m.slot disp)
          (setLow (m.stack (m.slot disp)) (m.cpu.seg src)) }
  | .lea disp dst => Prog.update fun m => { m with cpu := m.cpu.setReg dst (m.slot disp) }
  | .subEsp n => Prog.update fun m => { m with cpu := m.cpu.setReg .esp (Word32.sub m.esp n) }
  | .addEsp n => Prog.update fun m => { m with cpu := m.cpu.setReg .esp (Word32.add m.esp n) }
  | .call f => TrashOS.call junk f
  | .load disp dst => Prog.update fun m =>
      { m with cpu := m.cpu.setReg dst (m.stack (m.slot disp)) }
  | .loadSeg disp dst => Prog.update fun m =>
      { m with cpu := m.cpu.setSeg dst (selectorOf (m.stack (m.slot disp))) }
  | .iret => Prog.update Machine.iret

/-- Straight-line code. -/
def execAll (junk : Callee → Clobber) : List Instr → Prog Machine Stop Unit
  | [] => pure ()
  | i :: is => do
      i.exec junk
      execAll junk is

/-- `int_handle_proc_switch` -/
def intHandleProcSwitch : List Instr :=
  [ .store .edi 4,
    .store .esi 8,
    .store .ebp 12,
    .store .ebx 16,
    .store .edx 20,
    .store .ecx 24,
    .store .eax 28,
    .storeZero 32,
    .storeZero 36,
    .storeZero 40,
    .storeZero 44,
    .storeSeg .gs 32,
    .storeSeg .fs 36,
    .storeSeg .es 40,
    .storeSeg .ds 44,
    .lea 44 .eax,
    .store .eax 48,
    .subEsp 48,
    .call .procStoreCtxt,
    .call .procNext,
    .call .procLoadCtxt,
    .call .lapicSendEoi,
    .addEsp 48,
    .load 4 .edi,
    .load 8 .esi,
    .load 12 .ebp,
    .load 16 .ebx,
    .load 20 .edx,
    .load 24 .ecx,
    .load 28 .eax,
    .loadSeg 32 .gs,
    .loadSeg 36 .fs,
    .loadSeg 40 .es,
    .loadSeg 44 .ds,
    .iret ]

/-- A timer interrupt, from the instruction it interrupts to the `iret`. -/
def tick (junk : Callee → Clobber) : Prog Machine Stop Unit := fun m =>
  execAll junk intHandleProcSwitch m.interrupt

end TrashOS
