import TrashOS.Proc.Interrupt

/-!
# What the interrupt handler does

Both hardware frames, the one of three words and the one of five, put the
context the handler builds at `[top - 64, top)`, where `top` is `TSS.esp0` if the
processor changed stacks and eight bytes above the interrupted `%esp` if it did
not (`Machine.frameEnd`).  So one description of the handler serves all four
combinations of the ring interrupted and the ring resumed; what differs is what
the last two fields of the context alias (`Machine.frame`) and whether `iret`
pops them (`resumed`).

All addresses are written as offsets below `top`.
-/

namespace TrashOS

variable {junk : Callee → Clobber} {cpu : Cpu} {stack : ℕ → ℕ} {m m' : Machine} {top : ℕ}

/-! ## Executing instructions -/

section Exec

variable (junk cpu stack) (sched : Sched) (is : List Instr)

theorem execAll_nil (m : Machine) : execAll junk [] m = .ok ((), m) := rfl

theorem execAll_append {is js : List Instr} {m m' : Machine}
    (first : execAll junk is m = .ok ((), m')) :
    execAll junk (is ++ js) m = execAll junk js m' := by
  induction is generalizing m with
  | nil =>
      cases first
      rfl
  | cons i is ih =>
      obtain ⟨_, m₁, head, rest⟩ := Prog.bind_eq_ok.mp first
      exact (Prog.bind_of_ok head).trans (ih rest)

theorem execAll_store (src : Reg) (d : ℕ) : execAll junk (.store src d :: is) ⟨cpu, stack, sched⟩
    = execAll junk is
        ⟨cpu, Function.update stack (Word32.sub (cpu.reg .esp) d) (cpu.reg src), sched⟩ :=
  Prog.bind_of_ok rfl

theorem execAll_storeZero (d : ℕ) : execAll junk (.storeZero d :: is) ⟨cpu, stack, sched⟩
    = execAll junk is ⟨cpu, Function.update stack (Word32.sub (cpu.reg .esp) d) 0, sched⟩ :=
  Prog.bind_of_ok rfl

theorem execAll_storeSeg (src : Seg) (d : ℕ) :
    execAll junk (.storeSeg src d :: is) ⟨cpu, stack, sched⟩
      = execAll junk is ⟨cpu, Function.update stack (Word32.sub (cpu.reg .esp) d)
          (setLow (stack (Word32.sub (cpu.reg .esp) d)) (cpu.seg src)), sched⟩ :=
  Prog.bind_of_ok rfl

theorem execAll_lea (d : ℕ) (dst : Reg) : execAll junk (.lea d dst :: is) ⟨cpu, stack, sched⟩
    = execAll junk is ⟨cpu.setReg dst (Word32.sub (cpu.reg .esp) d), stack, sched⟩ :=
  Prog.bind_of_ok rfl

theorem execAll_subEsp (n : ℕ) : execAll junk (.subEsp n :: is) ⟨cpu, stack, sched⟩
    = execAll junk is ⟨cpu.setReg .esp (Word32.sub (cpu.reg .esp) n), stack, sched⟩ :=
  Prog.bind_of_ok rfl

theorem execAll_addEsp (n : ℕ) : execAll junk (.addEsp n :: is) ⟨cpu, stack, sched⟩
    = execAll junk is ⟨cpu.setReg .esp (Word32.add (cpu.reg .esp) n), stack, sched⟩ :=
  Prog.bind_of_ok rfl

theorem execAll_load (d : ℕ) (dst : Reg) : execAll junk (.load d dst :: is) ⟨cpu, stack, sched⟩
    = execAll junk is ⟨cpu.setReg dst (stack (Word32.sub (cpu.reg .esp) d)), stack, sched⟩ :=
  Prog.bind_of_ok rfl

theorem execAll_loadSeg (d : ℕ) (dst : Seg) :
    execAll junk (.loadSeg d dst :: is) ⟨cpu, stack, sched⟩ = execAll junk is
      ⟨cpu.setSeg dst (selectorOf (stack (Word32.sub (cpu.reg .esp) d))), stack, sched⟩ :=
  Prog.bind_of_ok rfl

theorem execAll_iret (m : Machine) : execAll junk [.iret] m = .ok ((), m.iret) := rfl

theorem setReg_reg (cpu : Cpu) (r r' : Reg) (v : ℕ) :
    (cpu.setReg r v).reg r' = if r' = r then v else cpu.reg r' :=
  Function.update_apply _ _ _ _

theorem setSeg_seg (cpu : Cpu) (r r' : Seg) (v : Selector) :
    (cpu.setSeg r v).seg r' = if r' = r then v else cpu.seg r' :=
  Function.update_apply _ _ _ _

theorem setSeg_reg (cpu : Cpu) (r : Seg) (r' : Reg) (v : Selector) :
    (cpu.setSeg r v).reg r' = cpu.reg r' := rfl

end Exec

/-! ## Saving the context -/

variable (junk stack) in
/-- The registers go to the words from `top - 24` down to `top - 48`; the words
below them are zeroed for the selectors. -/
theorem saveRegs_run (sched : Sched) (esp : cpu.reg .esp = Word32.sub top 20) :
    ∃ S, execAll junk (intHandleProcSwitch.take 11) ⟨cpu, stack, sched⟩
        = .ok ((), ⟨cpu, S, sched⟩) ∧
      S (Word32.sub top 24) = cpu.reg .edi ∧ S (Word32.sub top 28) = cpu.reg .esi ∧
      S (Word32.sub top 32) = cpu.reg .ebp ∧ S (Word32.sub top 36) = cpu.reg .ebx ∧
      S (Word32.sub top 40) = cpu.reg .edx ∧ S (Word32.sub top 44) = cpu.reg .ecx ∧
      S (Word32.sub top 48) = cpu.reg .eax ∧ S (Word32.sub top 52) = 0 ∧
      S (Word32.sub top 56) = 0 ∧ S (Word32.sub top 60) = 0 ∧ S (Word32.sub top 64) = 0 ∧
      ∀ a, (∀ k, 20 < k → k ≤ 64 → a ≠ Word32.sub top k) → S a = stack a := by
  refine ⟨?_, ?_, ?_⟩
  rotate_left
  · simp only [intHandleProcSwitch, List.take, execAll_nil, execAll_store, execAll_storeZero, esp,
      Word32.sub_sub, Nat.reduceAdd]
    rfl
  · refine ⟨?_, ?_, ?_, ?_, ?_, ?_, ?_, ?_, ?_, ?_, ?_, fun a outside => ?_⟩
    rotate_right
    · simp (disch := omega) only [Function.update_apply, outside, if_false]
    all_goals simp (disch := omega) only [Function.update_apply, Word32.sub_left_inj,
      Nat.reduceEqDiff, if_true, if_false]

variable (junk) in
/-- The selectors go to the zeroed words, then the address of the context becomes
the argument of the calls. -/
theorem saveSegs_run (sched : Sched) (esp : cpu.reg .esp = Word32.sub top 20)
    (gs : stack (Word32.sub top 52) = 0) (fs : stack (Word32.sub top 56) = 0)
    (es : stack (Word32.sub top 60) = 0) (ds : stack (Word32.sub top 64) = 0) :
    ∃ S, execAll junk ((intHandleProcSwitch.take 18).drop 11) ⟨cpu, stack, sched⟩
        = .ok ((), ⟨(cpu.setReg .eax (Word32.sub top 64)).setReg .esp (Word32.sub top 68), S,
            sched⟩) ∧
      S (Word32.sub top 52) = cpu.seg .gs ∧ S (Word32.sub top 56) = cpu.seg .fs ∧
      S (Word32.sub top 60) = cpu.seg .es ∧ S (Word32.sub top 64) = cpu.seg .ds ∧
      S (Word32.sub top 68) = Word32.sub top 64 ∧
      ∀ a, (∀ k, 48 < k → k ≤ 68 → a ≠ Word32.sub top k) → S a = stack a := by
  refine ⟨?_, ?_, ?_⟩
  rotate_left
  · simp (disch := omega) only [intHandleProcSwitch, List.take, List.drop, execAll_nil,
      execAll_store, execAll_storeSeg, execAll_lea, execAll_subEsp, esp, Word32.sub_sub,
      Nat.reduceAdd, setReg_reg, reduceCtorEq, if_true, if_false, Function.update_apply,
      Word32.sub_left_inj, Nat.reduceEqDiff, gs, fs, es, ds, setLow, Nat.zero_div, Nat.zero_mul,
      Nat.zero_add]
    rfl
  · refine ⟨?_, ?_, ?_, ?_, ?_, fun a outside => ?_⟩
    rotate_right
    · simp (disch := omega) only [Function.update_apply, outside, if_false]
    all_goals simp (disch := omega) only [Function.update_apply, Word32.sub_left_inj,
      Nat.reduceEqDiff, if_true, if_false]

/-- The context in the frame below `top`: the registers, and the five words the
processor may have pushed. -/
def savedCtxt (cpu : Cpu) (stack : ℕ → ℕ) (top : ℕ) : ProcCtxt where
  ds := cpu.seg .ds
  es := cpu.seg .es
  fs := cpu.seg .fs
  gs := cpu.seg .gs
  eax := cpu.reg .eax
  ecx := cpu.reg .ecx
  edx := cpu.reg .edx
  ebx := cpu.reg .ebx
  ebp := cpu.reg .ebp
  esi := cpu.reg .esi
  edi := cpu.reg .edi
  eip := stack (Word32.sub top 20)
  cs := stack (Word32.sub top 16)
  eflags := stack (Word32.sub top 12)
  esp := stack (Word32.sub top 8)
  ss := stack (Word32.sub top 4)

variable (junk stack) in
theorem save_run (sched : Sched) (esp : cpu.reg .esp = Word32.sub top 20) :
    ∃ S, execAll junk (intHandleProcSwitch.take 18) ⟨cpu, stack, sched⟩
        = .ok ((), ⟨(cpu.setReg .eax (Word32.sub top 64)).setReg .esp (Word32.sub top 68), S,
            sched⟩) ∧
      readCtxt S (Word32.sub top 64) = savedCtxt cpu stack top ∧
      S (Word32.sub top 68) = Word32.sub top 64 ∧
      ∀ a, (∀ k, 20 < k → k ≤ 68 → a ≠ Word32.sub top k) → S a = stack a := by
  obtain ⟨R, runR, edi, esi, ebp, ebx, edx, ecx, eax, gs, fs, es, ds, outR⟩ :=
    saveRegs_run junk stack sched esp
  obtain ⟨S, runS, gs', fs', es', ds', arg, outS⟩ := saveSegs_run junk sched esp gs fs es ds
  have upper : ∀ k, 20 < k → k ≤ 48 → S (Word32.sub top k) = R (Word32.sub top k) := by
    intro k lower bound
    refine outS _ fun j hj hj' same => ?_
    rw [Word32.sub_left_inj (by omega) (by omega)] at same
    omega
  have pushed : ∀ k, k ≤ 20 → S (Word32.sub top k) = stack (Word32.sub top k) := by
    intro k bound
    rw [outS _ fun j hj hj' same => ?_, outR _ fun j hj hj' same => ?_]
    · rw [Word32.sub_left_inj (by omega) (by omega)] at same
      omega
    · rw [Word32.sub_left_inj (by omega) (by omega)] at same
      omega
  refine ⟨S, (execAll_append junk runR).trans runS, ?_, arg, fun a outside => ?_⟩
  · simp (disch := omega) only [readCtxt, savedCtxt, Word32.add_sub, Nat.reduceSub, ds', es', fs',
      gs', upper, pushed, eax, ecx, edx, ebx, ebp, esi, edi]
  · rw [outS a fun k hk hk' => outside k (by omega) hk', outR a fun k hk hk' =>
      outside k hk (by omega)]

/-! ## The calls -/

variable (stack top) in
/-- `*ctxt = c` writes the frame and nothing else. -/
theorem writeWords_frame (c : ProcCtxt) :
    readCtxt (writeWords stack (Word32.sub top 64) c.words) (Word32.sub top 64) = c ∧
      ∀ a, (∀ k, 0 < k → k ≤ 64 → a ≠ Word32.sub top k) →
        writeWords stack (Word32.sub top 64) c.words a = stack a := by
  constructor
  · simp (disch := omega) only [ProcCtxt.words, writeWords, readCtxt, Word32.add_sub,
      Nat.reduceSub, Function.update_apply, Word32.sub_left_inj, Nat.reduceEqDiff, if_true,
      if_false]
  · intro a outside
    simp (disch := omega) only [ProcCtxt.words, writeWords, Word32.add_sub, Nat.reduceSub,
      Function.update_apply, outside, if_false]

/-- The slots of the handler do not lie below its stack pointer. -/
theorem not_below_slot {k : ℕ} (slot : k ≤ 68) :
    ¬ Below (Word32.sub top 68) (Word32.sub top k) := by
  rintro ⟨pos, depth⟩
  rw [Word32.sub_sub_sub] at pos depth
  rcases slot.eq_or_lt with rfl | inside
  · rw [Word32.sub_eq (by omega) (by omega)] at pos
    omega
  · rw [Word32.sub_eq_of_lt inside (by omega)] at depth
    unfold calleeDepth at depth
    omega

/-- What the handler relies on while it calls C functions: its own stack pointer
and privilege level, and the words that do not lie below the stack pointer. -/
structure Called (m m' : Machine) : Prop where
  esp : m'.cpu.reg .esp = m.cpu.reg .esp
  cs : m'.cpu.cs = m.cpu.cs
  ss : m'.cpu.ss = m.cpu.ss

theorem Called.trans {m₁ m₂ m₃ : Machine} (first : Called m₁ m₂) (second : Called m₂ m₃) :
    Called m₁ m₃ :=
  ⟨second.esp.trans first.esp, second.cs.trans first.cs, second.ss.trans first.ss⟩

theorem called_clobbered (m m' : Machine) (same : m'.cpu = m.cpu) (c : Clobber) :
    Called m (m'.clobbered c) := by
  refine ⟨?_, ?_, ?_⟩
  · rw [← same]
    simp [Machine.clobbered, setReg_reg]
  · rw [← same]
    rfl
  · rw [← same]
    rfl

theorem clobbered_stack {c : Clobber} {a : ℕ} (kept : ¬ Below m.esp a) :
    (m.clobbered c).stack a = m.stack a :=
  if_neg kept

theorem execAll_call {f : Callee} {is : List Instr} (body : f.body m = .ok ((), m')) :
    execAll junk (.call f :: is) m = execAll junk is (m'.clobbered (junk f)) := by
  refine Prog.bind_of_ok (a := ()) ?_
  change call junk f m = _
  unfold call
  rw [Prog.bind_of_ok body]
  rfl

/-- The scheduler state in which `proc_next` is called. -/
def Sched.storeCtxt (s : Sched) (c : ProcCtxt) : Sched :=
  { s with procTable := Function.update s.procTable s.pid { s.procTable s.pid with ctxt := c } }

variable (junk) in
/-- The four calls store the context of the frame, schedule, and put the context
of the process that is current then into the frame. -/
theorem calls_run {s : Sched} (esp : m.cpu.reg .esp = Word32.sub top 68)
    (arg : m.stack (Word32.sub top 68) = Word32.sub top 64)
    (next : procNext (m.sched.storeCtxt (readCtxt m.stack (Word32.sub top 64))) = .ok ((), s)) :
    ∃ m', execAll junk ((intHandleProcSwitch.take 22).drop 18) m = .ok ((), m') ∧ Called m m' ∧
      m'.sched = s ∧ readCtxt m'.stack (Word32.sub top 64) = (s.procTable s.pid).ctxt ∧
      ∀ a, (∀ k, 0 < k → k ≤ 64 → a ≠ Word32.sub top k) → ¬ Below (Word32.sub top 68) a →
        m'.stack a = m.stack a := by
  let m₁ : Machine :=
    { m with sched := m.sched.storeCtxt (readCtxt m.stack (Word32.sub top 64)) }
  let m₂ := m₁.clobbered (junk .procStoreCtxt)
  let m₃ : Machine := { m₂ with sched := s }
  let m₄ := m₃.clobbered (junk .procNext)
  let m₅ : Machine :=
    { m₄ with stack := writeWords m₄.stack (Word32.sub top 64) (s.procTable s.pid).ctxt.words }
  let m₆ := m₅.clobbered (junk .procLoadCtxt)
  let m₇ := m₆.clobbered (junk .lapicSendEoi)
  have called₂ : Called m m₂ := called_clobbered m m₁ rfl _
  have called₄ : Called m m₄ := called₂.trans (called_clobbered m₂ m₃ rfl _)
  have called₆ : Called m m₆ := called₄.trans (called_clobbered m₄ m₅ rfl _)
  have called₇ : Called m m₇ := called₆.trans (called_clobbered m₆ m₆ rfl _)
  have kept₄ : ∀ a, ¬ Below (Word32.sub top 68) a → m₄.stack a = m.stack a := by
    intro a kept
    have at₁ : ¬ Below m₁.esp a := by rwa [show m₁.esp = Word32.sub top 68 from esp]
    have at₃ : ¬ Below m₃.esp a := by
      rwa [show m₃.esp = Word32.sub top 68 from called₂.esp.trans esp]
    exact (clobbered_stack at₃).trans (clobbered_stack at₁)
  have kept₇ : ∀ a, ¬ Below (Word32.sub top 68) a → m₇.stack a = m₅.stack a := by
    intro a kept
    have at₅ : ¬ Below m₅.esp a := by
      rwa [show m₅.esp = Word32.sub top 68 from called₄.esp.trans esp]
    have at₆ : ¬ Below m₆.esp a := by
      rwa [show m₆.esp = Word32.sub top 68 from called₆.esp.trans esp]
    exact (clobbered_stack at₆).trans (clobbered_stack at₅)
  have arg₄ : m₄.stack m₄.esp = Word32.sub top 64 := by
    rw [show m₄.esp = Word32.sub top 68 from called₄.esp.trans esp,
      kept₄ _ (not_below_slot (by omega)), arg]
  obtain ⟨frame, outside⟩ := writeWords_frame m₄.stack top
    (s.procTable s.pid).ctxt
  refine ⟨m₇, ?_, called₇, rfl, ?_, fun a out kept => ?_⟩
  · have store : Callee.procStoreCtxt.body m = .ok ((), m₁) := by
      change procStoreCtxt (m.stack m.esp) m = _
      rw [show m.esp = Word32.sub top 68 from esp, arg]
      rfl
    have schedule : Callee.procNext.body m₂ = .ok ((), m₃) := by
      change procNextCall m₂ = _
      unfold procNextCall
      rw [show m₂.sched = m₁.sched from rfl, show procNext m₁.sched = .ok ((), s) from next]
    have load : Callee.procLoadCtxt.body m₄ = .ok ((), m₅) := by
      change procLoadCtxt (m₄.stack m₄.esp) m₄ = _
      rw [arg₄]
      rfl
    simp only [intHandleProcSwitch, List.take, List.drop]
    rw [execAll_call store, execAll_call schedule, execAll_call load,
      execAll_call (show Callee.lapicSendEoi.body m₆ = .ok ((), m₆) from rfl)]
    rfl
  · have slots : ∀ k, k ≤ 68 → m₇.stack (Word32.sub top k) = m₅.stack (Word32.sub top k) :=
      fun k slot => kept₇ _ (not_below_slot slot)
    refine Eq.trans ?_ frame
    simp (disch := omega) only [readCtxt, Word32.add_sub, Nat.reduceSub, slots]
    rfl
  · rw [kept₇ a kept]
    exact (outside a out).trans (kept₄ a kept)

/-! ## Restoring the context -/

/-- The registers a context describes. -/
def Cpu.ofCtxt (c : ProcCtxt) : Cpu where
  reg
    | .eax => c.eax
    | .ecx => c.ecx
    | .edx => c.edx
    | .ebx => c.ebx
    | .esp => c.esp
    | .ebp => c.ebp
    | .esi => c.esi
    | .edi => c.edi
  seg
    | .ds => selectorOf c.ds
    | .es => selectorOf c.es
    | .fs => selectorOf c.fs
    | .gs => selectorOf c.gs
  eip := c.eip
  cs := selectorOf c.cs
  eflags := c.eflags
  ss := selectorOf c.ss

/-- The registers after the `iret` from a frame below `top` that holds `c`: the
last two fields count only for a return to an outer ring. -/
def resumed (c : ProcCtxt) (top : ℕ) (ss : Selector) : Cpu :=
  if ring c.cs = 0 then { (Cpu.ofCtxt c).setReg .esp (Word32.sub top 8) with ss := ss }
  else Cpu.ofCtxt c

/-- `iret` with the registers of `c` loaded and the words of `c` on the stack. -/
theorem iret_run {c : ProcCtxt} (sched : Sched) (esp : cpu.reg .esp = Word32.sub top 20)
    (handler : ring cpu.cs = 0) (frame : readCtxt stack (Word32.sub top 64) = c)
    (regs : ∀ r, r ≠ .esp → cpu.reg r = (Cpu.ofCtxt c).reg r)
    (segs : cpu.seg = (Cpu.ofCtxt c).seg) :
    Machine.iret ⟨cpu, stack, sched⟩ = ⟨resumed c top cpu.ss, stack, sched⟩ := by
  have words : c.eip = stack (Word32.sub top 20) ∧ c.cs = stack (Word32.sub top 16) ∧
      c.eflags = stack (Word32.sub top 12) ∧ c.esp = stack (Word32.sub top 8) ∧
      c.ss = stack (Word32.sub top 4) := by
    rw [← frame]
    simp (disch := omega) only [readCtxt, Word32.add_sub, Nat.reduceSub, and_self]
  obtain ⟨eip, cs, eflags, espWord, ss⟩ := words
  have state : ∀ c₁ c₂ : Cpu, c₁ = c₂ → Machine.mk c₁ stack sched = ⟨c₂, stack, sched⟩ :=
    fun _ _ same => same ▸ rfl
  unfold Machine.iret resumed
  simp (disch := omega) only [Machine.esp, esp, Word32.add_sub, Nat.reduceSub, ← eip, ← cs,
    ← eflags, ← espWord, ← ss, handler, ring_selectorOf]
  by_cases outer : ring c.cs = 0
  · rw [if_neg (by omega), if_pos outer]
    refine state _ _ (Cpu.ext (funext fun r => ?_) segs rfl rfl rfl rfl)
    simp only [setReg_reg]
    split_ifs with isEsp
    · rfl
    · exact regs r isEsp
  · rw [if_pos (by omega), if_neg outer]
    refine state _ _ (Cpu.ext (funext fun r => ?_) segs rfl rfl rfl rfl)
    simp only [setReg_reg]
    split_ifs with isEsp
    · rw [isEsp]
      rfl
    · exact regs r isEsp

variable (junk) in
theorem restore_run {c : ProcCtxt} (sched : Sched) (esp : cpu.reg .esp = Word32.sub top 68)
    (handler : ring cpu.cs = 0) (frame : readCtxt stack (Word32.sub top 64) = c) :
    execAll junk (intHandleProcSwitch.drop 22) ⟨cpu, stack, sched⟩
      = .ok ((), ⟨resumed c top cpu.ss, stack, sched⟩) := by
  simp (disch := omega) only [intHandleProcSwitch, List.drop, execAll_addEsp, execAll_load,
    execAll_loadSeg, execAll_iret, setReg_reg, setSeg_reg, esp, Word32.sub_sub, Word32.add_sub,
    reduceCtorEq, if_true, if_false, Nat.reduceAdd, Nat.reduceSub]
  rw [iret_run sched ?_ ?_ frame (fun r notEsp => ?_) (funext fun r => ?_)]
  · rfl
  · simp only [setReg_reg, setSeg_reg, reduceCtorEq, if_true, if_false]
  · exact handler
  · rw [← frame]
    cases r with
    | esp => exact absurd rfl notEsp
    | _ =>
        simp (disch := omega) only [setReg_reg, setSeg_reg, reduceCtorEq, if_true, if_false,
          Cpu.ofCtxt, readCtxt, Word32.add_sub, Nat.reduceSub]
  · rw [← frame]
    cases r <;>
      simp (disch := omega) only [setSeg_seg, reduceCtorEq, if_true, if_false, Cpu.ofCtxt, readCtxt,
        Word32.add_sub, Nat.reduceSub]

/-! ## The whole interrupt -/

/-- Where the frame of an interrupt of `m` ends. -/
def Machine.frameEnd (m : Machine) : ℕ :=
  if ring m.cpu.cs = 0 then Word32.add m.esp 8 else m.sched.esp0

/-- The registers as a context. -/
def Cpu.ctxt (cpu : Cpu) : ProcCtxt where
  ds := cpu.seg .ds
  es := cpu.seg .es
  fs := cpu.seg .fs
  gs := cpu.seg .gs
  eax := cpu.reg .eax
  ecx := cpu.reg .ecx
  edx := cpu.reg .edx
  ebx := cpu.reg .ebx
  ebp := cpu.reg .ebp
  esi := cpu.reg .esi
  edi := cpu.reg .edi
  eip := cpu.eip
  cs := cpu.cs
  eflags := cpu.eflags
  esp := cpu.reg .esp
  ss := cpu.ss

/-- The context an interrupt of `m` stores.  In ring 0 its last two fields are
the two words above the interrupted stack pointer. -/
def Machine.frame (m : Machine) : ProcCtxt :=
  if ring m.cpu.cs = 0 then
    { m.cpu.ctxt with
      esp := m.stack (Word32.sub m.frameEnd 8)
      ss := m.stack (Word32.sub m.frameEnd 4) }
  else m.cpu.ctxt

/-- `ss` while the handler runs. -/
def Machine.handlerSs (m : Machine) : Selector :=
  if ring m.cpu.cs = 0 then m.cpu.ss else gdtSelDataPl0

theorem ring_gdtSelCodePl0 : ring gdtSelCodePl0 = 0 := by decide

theorem push_run {cpu : Cpu} {a : ℕ} (slot : Word32.sub (cpu.reg .esp) 4 = a) (stack : ℕ → ℕ)
    (sched : Sched) (word : ℕ) : Machine.push ⟨cpu, stack, sched⟩ word
      = ⟨cpu.setReg .esp a, Function.update stack a word, sched⟩ := by
  subst slot
  rfl

theorem setReg_setReg (cpu : Cpu) (r : Reg) (v w : ℕ) :
    (cpu.setReg r v).setReg r w = cpu.setReg r w := by
  unfold Cpu.setReg
  rw [Function.update_idem]

variable (top) in
/-- The three words every interrupt pushes. -/
theorem push_three (e : Machine) (eflags cs eip : ℕ)
    (below : Word32.sub e.esp 4 = Word32.sub top 12) :
    ∃ S, ((e.push eflags).push cs).push eip
        = ⟨e.cpu.setReg .esp (Word32.sub top 20), S, e.sched⟩ ∧
      S (Word32.sub top 12) = eflags ∧ S (Word32.sub top 16) = cs ∧ S (Word32.sub top 20) = eip ∧
      ∀ a, (∀ k, 8 < k → k ≤ 20 → a ≠ Word32.sub top k) → S a = e.stack a := by
  obtain ⟨cpu, stack, sched⟩ := e
  have next : ∀ k, Word32.sub ((cpu.setReg .esp (Word32.sub top k)).reg .esp) 4
      = Word32.sub top (k + 4) := fun k => by
    rw [setReg_reg, if_pos rfl, Word32.sub_sub]
  refine ⟨Function.update (Function.update (Function.update stack (Word32.sub top 12) eflags)
    (Word32.sub top 16) cs) (Word32.sub top 20) eip, ?_, ?_, ?_, ?_, fun a outside => ?_⟩
  · rw [push_run below, push_run (next 12), setReg_setReg, push_run (next 16), setReg_setReg]
  rotate_right
  · simp (disch := omega) only [Function.update_apply, outside, if_false]
  all_goals simp (disch := omega) only [Function.update_apply, Word32.sub_left_inj,
    Nat.reduceEqDiff, if_true, if_false]

/-- The registers on the stack of the TSS. -/
def Cpu.switched (cpu : Cpu) (esp : ℕ) : Cpu :=
  ⟨(cpu.setReg .esp esp).reg, cpu.seg, cpu.eip, cpu.cs, cpu.eflags, gdtSelDataPl0⟩

theorem setReg_switched (cpu : Cpu) (v w : ℕ) :
    (cpu.switched v).setReg .esp w = cpu.switched w := by
  unfold Cpu.switched Cpu.setReg
  simp only [Function.update_idem]

theorem esp_mk (cpu : Cpu) (stack : ℕ → ℕ) (sched : Sched) :
    Machine.esp ⟨cpu, stack, sched⟩ = cpu.reg .esp := rfl

theorem switched_esp (cpu : Cpu) (v : ℕ) : (cpu.switched v).reg .esp = v := by
  unfold Cpu.switched
  rw [setReg_reg, if_pos rfl]

/-- The processor pushes `ss` and `esp` on the stack of the TSS. -/
theorem switchStack_run (m : Machine) (user : ring m.cpu.cs ≠ 0) :
    ∃ T, m.switchStack
        = ⟨m.cpu.switched (Word32.sub m.frameEnd 8), T, m.sched⟩ ∧
        T (Word32.sub m.frameEnd 4) = m.cpu.ss ∧ T (Word32.sub m.frameEnd 8) = m.esp ∧
        ∀ a, a ≠ Word32.sub m.frameEnd 4 → a ≠ Word32.sub m.frameEnd 8 → T a = m.stack a := by
  have frameEnd : m.frameEnd = m.sched.esp0 := if_neg user
  have differs : Word32.sub m.frameEnd 4 ≠ Word32.sub m.frameEnd 8 := by
    intro same
    rw [Word32.sub_left_inj (by omega) (by omega)] at same
    omega
  have first : Word32.sub ((m.cpu.switched m.sched.esp0).reg .esp) 4 = Word32.sub m.frameEnd 4 := by
    rw [switched_esp, frameEnd]
  have second : Word32.sub ((m.cpu.switched (Word32.sub m.frameEnd 4)).reg .esp) 4
      = Word32.sub m.frameEnd 8 := by
    rw [switched_esp, Word32.sub_sub]
  refine ⟨Function.update (Function.update m.stack (Word32.sub m.frameEnd 4) m.cpu.ss)
    (Word32.sub m.frameEnd 8) m.esp, ?_, ?_, Function.update_self _ _ _, fun a h4 h8 => ?_⟩
  · unfold Machine.switchStack
    rw [if_neg user]
    change Machine.push (Machine.push ⟨m.cpu.switched m.sched.esp0, m.stack, m.sched⟩ m.cpu.ss)
      m.esp = _
    rw [push_run first, setReg_switched, push_run second, setReg_switched]
  · rw [Function.update_of_ne differs, Function.update_self]
  · rw [Function.update_of_ne h8, Function.update_of_ne h4]

/-- The registers when the handler is entered. -/
def Machine.handlerCpu (m : Machine) : Cpu :=
  ⟨(m.cpu.setReg .esp (Word32.sub m.frameEnd 20)).reg, m.cpu.seg, m.cpu.eip, gdtSelCodePl0,
    m.cpu.eflags, m.handlerSs⟩

theorem handlerCpu_esp (m : Machine) : m.handlerCpu.reg .esp = Word32.sub m.frameEnd 20 := by
  unfold Machine.handlerCpu
  rw [setReg_reg, if_pos rfl]

theorem handlerCpu_reg (m : Machine) {r : Reg} (other : r ≠ .esp) :
    m.handlerCpu.reg r = m.cpu.reg r := by
  unfold Machine.handlerCpu
  rw [setReg_reg, if_neg other]

/-- The stack when the handler is entered. -/
theorem interrupt_stack (m : Machine) :
    ∃ S, m.interrupt = ⟨m.handlerCpu, S, m.sched⟩ ∧
      S (Word32.sub m.frameEnd 4) = m.frame.ss ∧ S (Word32.sub m.frameEnd 8) = m.frame.esp ∧
      S (Word32.sub m.frameEnd 12) = m.cpu.eflags ∧ S (Word32.sub m.frameEnd 16) = m.cpu.cs ∧
      S (Word32.sub m.frameEnd 20) = m.cpu.eip ∧
      ∀ a, (∀ k, 0 < k → k ≤ 20 → a ≠ Word32.sub m.frameEnd k) → S a = m.stack a := by
  have differ : ∀ i j, i ≤ 20 → j ≤ 20 → i ≠ j →
      Word32.sub m.frameEnd i ≠ Word32.sub m.frameEnd j := by
    intro i j hi hj differs same
    rw [Word32.sub_left_inj (by omega) (by omega)] at same
    exact differs same
  by_cases kernel : ring m.cpu.cs = 0
  · have frameEnd : m.frameEnd = Word32.add m.esp 8 := if_pos kernel
    obtain ⟨S, run, eflags, cs, eip, outside⟩ := push_three m.frameEnd m m.cpu.eflags
      m.cpu.cs m.cpu.eip (by rw [frameEnd, Word32.sub_add_add _ 4 8])
    refine ⟨S, ?_, ?_, ?_, eflags, cs, eip, fun a out =>
      outside a fun k hk hk' => out k (by omega) hk'⟩
    · unfold Machine.interrupt Machine.switchStack
      rw [if_pos kernel, run]
      unfold Machine.handlerCpu
      rw [show m.handlerSs = m.cpu.ss from if_pos kernel]
      rfl
    · rw [outside _ fun k hk hk' => differ 4 k (by omega) hk' (by omega), Machine.frame,
        if_pos kernel]
    · rw [outside _ fun k hk hk' => differ 8 k (by omega) hk' (by omega), Machine.frame,
        if_pos kernel]
  · obtain ⟨T, pushed, ss, esp, under⟩ := switchStack_run m kernel
    have slot : Word32.sub (Machine.esp ⟨m.cpu.switched (Word32.sub m.frameEnd 8), T, m.sched⟩) 4
        = Word32.sub m.frameEnd 12 := by
      rw [esp_mk, switched_esp, Word32.sub_sub]
    obtain ⟨S, run, eflags, cs, eip, outside⟩ := push_three m.frameEnd
      ⟨m.cpu.switched (Word32.sub m.frameEnd 8), T, m.sched⟩ m.cpu.eflags m.cpu.cs m.cpu.eip slot
    refine ⟨S, ?_, ?_, ?_, eflags, cs, eip, fun a out => ?_⟩
    · unfold Machine.interrupt
      rw [pushed, run, setReg_switched]
      unfold Machine.handlerCpu
      rw [show m.handlerSs = gdtSelDataPl0 from if_neg kernel]
      rfl
    · rw [outside _ fun k hk hk' => differ 4 k (by omega) hk' (by omega), Machine.frame,
        if_neg kernel]
      exact ss
    · rw [outside _ fun k hk hk' => differ 8 k (by omega) hk' (by omega), Machine.frame,
        if_neg kernel]
      exact esp
    · rw [outside a fun k hk hk' => out k (by omega) hk']
      exact under a (out 4 (by omega) (by omega)) (out 8 (by omega) (by omega))

/-- The context of the interrupted code is in the registers and on the stack when
the handler is entered. -/
theorem interrupt_entry (m : Machine) :
    ∃ S, m.interrupt = ⟨m.handlerCpu, S, m.sched⟩ ∧
      savedCtxt m.handlerCpu S m.frameEnd = m.frame ∧
      ∀ a, (∀ k, 0 < k → k ≤ 20 → a ≠ Word32.sub m.frameEnd k) → S a = m.stack a := by
  obtain ⟨S, entry, ss, esp, eflags, cs, eip, outside⟩ := interrupt_stack m
  refine ⟨S, entry, ?_, outside⟩
  unfold savedCtxt
  rw [handlerCpu_reg m (r := .eax) (by decide), handlerCpu_reg m (r := .ecx) (by decide),
    handlerCpu_reg m (r := .edx) (by decide), handlerCpu_reg m (r := .ebx) (by decide),
    handlerCpu_reg m (r := .ebp) (by decide), handlerCpu_reg m (r := .esi) (by decide),
    handlerCpu_reg m (r := .edi) (by decide), ss, esp, eflags, cs, eip]
  unfold Machine.frame
  split_ifs
  · rfl
  · rfl

variable (junk) in
/-- **A timer interrupt**, for both hardware frames: the interrupted context is
stored for the current process, the scheduler runs, and the processor resumes the
context of the process that is current then.  Only the frame and the words below
it change. -/
theorem tick_run {s : Sched} (next : procNext (m.sched.storeCtxt m.frame) = .ok ((), s)) :
    ∃ m', tick junk m = .ok ((), m') ∧ m'.sched = s ∧
      m'.cpu = resumed (s.procTable s.pid).ctxt m.frameEnd m.handlerSs ∧
      readCtxt m'.stack (Word32.sub m.frameEnd 64) = (s.procTable s.pid).ctxt ∧
      ∀ a, (∀ k, 0 < k → k ≤ 68 → a ≠ Word32.sub m.frameEnd k) →
        ¬ Below (Word32.sub m.frameEnd 68) a → m'.stack a = m.stack a := by
  obtain ⟨S₀, entry, saved, out₀⟩ := interrupt_entry m
  obtain ⟨S, runS, frameS, arg, outS⟩ := save_run junk S₀ m.sched
    (handlerCpu_esp m)
  rw [saved] at frameS
  obtain ⟨cpu₁, named⟩ : ∃ cpu, cpu = (m.handlerCpu.setReg .eax
    (Word32.sub m.frameEnd 64)).setReg .esp (Word32.sub m.frameEnd 68) := ⟨_, rfl⟩
  rw [← named] at runS
  have esp₁ : cpu₁.reg .esp = Word32.sub m.frameEnd 68 := by
    rw [named, setReg_reg, if_pos rfl]
  have cs₁ : cpu₁.cs = gdtSelCodePl0 := by
    rw [named]
    rfl
  have ss₁ : cpu₁.ss = m.handlerSs := by
    rw [named]
    rfl
  obtain ⟨⟨cpu₂, stack₂, s₂⟩, run₂, called, sched₂, frame₂, out₂⟩ :=
    calls_run junk (m := ⟨cpu₁, S, m.sched⟩) (s := s) esp₁ arg (by
      rw [frameS]
      exact next)
  have handler : ring cpu₂.cs = 0 := by
    rw [called.cs, cs₁, ring_gdtSelCodePl0]
  have restore := restore_run junk s₂ (called.esp.trans esp₁) handler frame₂
  rw [called.ss, ss₁] at restore
  refine ⟨⟨resumed (s.procTable s.pid).ctxt m.frameEnd m.handlerSs, stack₂, s₂⟩, ?_, sched₂, rfl,
    frame₂, fun a out kept => ?_⟩
  · have code : intHandleProcSwitch = intHandleProcSwitch.take 18
        ++ ((intHandleProcSwitch.take 22).drop 18 ++ intHandleProcSwitch.drop 22) := rfl
    unfold tick
    rw [entry, code, execAll_append junk runS, execAll_append junk run₂]
    exact restore
  · have kept₂ := out₂ a (fun k hk hk' => out k hk (by omega)) kept
    have keptS := outS a fun k hk hk' => out k (by omega) hk'
    have kept₀ := out₀ a fun k hk hk' => out k hk (by omega)
    rw [← kept₀, ← keptS]
    exact kept₂

end TrashOS
