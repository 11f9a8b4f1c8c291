import TrashOS.Int.Deliver
import TrashOS.Proc.Switch

/-!
# The timer under the checks of the processor

`tick` loads the selectors it finds in the context of a process as they are.  Here the
processor checks every load: the signal is delivered through the tables, `movw` into a
segment register and `iret` look their selectors up, and `iret` clears the registers an
outer ring may not keep (`guardedTick`).

Code in any ring changes its segment registers by the same checks only (`GuardedStep`).
The invariant `SegmentsValid` says that everything loaded or waiting to be loaded passes
the checks in its own ring; and what an outer ring may load, the handler in ring 0 may
load.  So in every run the checked timer does what `tick` does (`guardedTick_of_run`).
-/

namespace TrashOS

open X86

variable {gdt : Table} {tables : Tables} {junk : Callee → Clobber} {m m' : Machine}
  {code : Handler → ℕ} {tss top : ℕ} {behind behind' : ℕ → ℕ} {cpu : Cpu} {stack : ℕ → ℕ}
  {sched : Sched} {is js : List Instr} {c : ProcCtxt} {nodes nodes' : List ℕ}

/-! ## Checked execution -/

/-- Why the handler does not return. -/
inductive Trap where
  /-- A C function stops -/
  | stop (stop : Stop)
  /-- The processor finds a fault -/
  | fault (fault : Fault)
  /-- The signal goes elsewhere -/
  | elsewhere
  deriving DecidableEq, Repr

/-- The result of unchecked execution. -/
def unchecked : Except Stop (Unit × Machine) → Except Trap (Unit × Machine)
  | .ok result => .ok result
  | .error stop => .error (.stop stop)

/-- `iret`, checked -/
def Machine.guardedIret (gdt : Table) (m : Machine) : Except Trap (Unit × Machine) :=
  let cs := selectorOf (m.stack (Word32.add m.esp 4))
  match gdt.returnCode (ring m.cpu.cs) cs with
  | .error fault => .error (.fault fault)
  | .ok _ =>
      if ring m.cpu.cs < ring cs then
        match gdt.loadStack (ring cs) (selectorOf (m.stack (Word32.add m.esp 16))) with
        | .error fault => .error (.fault fault)
        | .ok _ => .ok ((), { m.iret with cpu := { m.iret.cpu with
            seg := fun r => selectorOf (gdt.revoke (ring cs) (m.cpu.seg r)) } })
      else .ok ((), m.iret)

/-- One instruction, checked -/
def Instr.guarded (gdt : Table) (junk : Callee → Clobber) : Instr → Prog Machine Trap Unit
  | .loadSeg disp dst => fun m =>
      match gdt.loadData (ring m.cpu.cs) (selectorOf (m.stack (m.slot disp))) with
      | .error fault => .error (.fault fault)
      | .ok _ => unchecked (Instr.exec junk (.loadSeg disp dst) m)
  | .iret => Machine.guardedIret gdt
  | i => fun m => unchecked (i.exec junk m)

/-- Straight-line code, checked -/
def execGuarded (gdt : Table) (junk : Callee → Clobber) : List Instr → Prog Machine Trap Unit
  | [] => pure ()
  | i :: is => do
      i.guarded gdt junk
      execGuarded gdt junk is

/-- **A timer interrupt with all checks**, where `int_handle_proc_switch` is at
`code .procSwitch`. -/
def guardedTick (tables : Tables) (code : Handler → ℕ) (junk : Callee → Clobber) :
    Prog Machine Trap Unit := fun m =>
  match m.deliver tables idtVectorTimer .external none with
  | .error fault => .error (.fault fault)
  | .ok none => .error .elsewhere
  | .ok (some entered) =>
      if entered.cpu.eip = code .procSwitch then
        execGuarded tables.gdt junk intHandleProcSwitch entered
      else .error .elsewhere

/-! ## When the checks pass -/

/-- The instruction passes its checks. -/
def Instr.Passes (gdt : Table) : Instr → Machine → Prop
  | .loadSeg disp _, m =>
      (gdt.loadData (ring m.cpu.cs) (selectorOf (m.stack (m.slot disp)))).isOk
  | .iret, m =>
      let cs := selectorOf (m.stack (Word32.add m.esp 4))
      (gdt.returnCode (ring m.cpu.cs) cs).isOk ∧ (ring m.cpu.cs < ring cs →
        (gdt.loadStack (ring cs) (selectorOf (m.stack (Word32.add m.esp 16)))).isOk ∧
          ∀ r, gdt.revoke (ring cs) (m.cpu.seg r) = m.cpu.seg r)
  | _, _ => True

/-- All instructions of a run do. -/
def AllPass (gdt : Table) (junk : Callee → Clobber) : List Instr → Machine → Prop
  | [], _ => True
  | i :: is, m => i.Passes gdt m ∧ ∀ m', i.exec junk m = .ok ((), m') → AllPass gdt junk is m'

theorem Except.exists_of_isOk {ε α : Type} {x : Except ε α} (isOk : x.isOk) : ∃ a, x = .ok a := by
  cases x with
  | error e => cases isOk
  | ok a => exact ⟨a, rfl⟩

/-- `iret` loads what is loaded. -/
theorem iret_seg (m : Machine) : m.iret.cpu.seg = m.cpu.seg := by
  unfold Machine.iret
  dsimp only
  split_ifs <;> rfl

theorem guarded_of_passes (i : Instr) (junk : Callee → Clobber) (passes : i.Passes gdt m) :
    i.guarded gdt junk m = unchecked (i.exec junk m) := by
  cases i with
  | loadSeg disp dst =>
      obtain ⟨d, loads⟩ := Except.exists_of_isOk passes
      unfold Instr.guarded
      dsimp only
      rw [loads]
  | iret =>
      obtain ⟨target, outer⟩ := passes
      obtain ⟨d, returns⟩ := Except.exists_of_isOk target
      unfold Instr.guarded Machine.guardedIret
      dsimp only
      rw [returns]
      dsimp only
      split_ifs with outward
      · obtain ⟨stackOk, kept⟩ := outer outward
        obtain ⟨e, loads⟩ := Except.exists_of_isOk stackOk
        rw [loads]
        dsimp only
        have seg : (fun r => selectorOf (gdt.revoke (ring (selectorOf (m.stack
            (Word32.add m.esp 4)))) (m.cpu.seg r))) = m.iret.cpu.seg := by
          rw [iret_seg]
          funext r
          rw [kept, selectorOf_val]
        rw [seg]
        rfl
      · rfl
  | _ => rfl

/-- **Checked and unchecked execution agree** where all checks pass. -/
theorem execGuarded_eq (passes : AllPass gdt junk is m) :
    execGuarded gdt junk is m = unchecked (execAll junk is m) := by
  induction is generalizing m with
  | nil => rfl
  | cons i is ih =>
      have first := guarded_of_passes i junk passes.1
      change (i.guarded gdt junk >>= fun _ => execGuarded gdt junk is) m =
        unchecked ((i.exec junk >>= fun _ => execAll junk is) m)
      cases run : i.exec junk m with
      | error stop =>
          rw [run] at first
          rw [Prog.bind_of_error run, Prog.bind_of_error first]
          rfl
      | ok result =>
          rw [run] at first
          rw [Prog.bind_of_ok run, Prog.bind_of_ok first]
          exact ih (passes.2 result.2 run)

theorem AllPass.append (first : AllPass gdt junk is m)
    (second : ∀ m', execAll junk is m = .ok ((), m') → AllPass gdt junk js m') :
    AllPass gdt junk (is ++ js) m := by
  induction is generalizing m with
  | nil => exact second m rfl
  | cons i is ih =>
      refine ⟨first.1, fun m' run => ih (first.2 m' run) fun m'' rest => ?_⟩
      exact second m'' ((Prog.bind_of_ok run).trans rest)

/-- Most instructions need no check. -/
def Instr.plain : Instr → Bool
  | .loadSeg _ _ | .iret => false
  | _ => true

theorem AllPass.of_plain (plain : is.all Instr.plain) : AllPass gdt junk is m := by
  induction is generalizing m with
  | nil => trivial
  | cons i is ih =>
      rw [List.all_cons, Bool.and_eq_true] at plain
      refine ⟨?_, fun m' _ => ih plain.2⟩
      cases i with
      | loadSeg => cases plain.1
      | iret => cases plain.1
      | _ => trivial

/-! ## Valid registers and contexts -/

/-- What is loaded passes the checks in its own ring. -/
structure Cpu.Valid (gdt : Table) (cpu : Cpu) : Prop where
  code : (gdt.returnCode 0 cpu.cs).isOk
  stack : (gdt.loadStack (ring cpu.cs) cpu.ss).isOk
  data : ∀ r, (gdt.loadData (ring cpu.cs) (cpu.seg r)).isOk

/-- What is to be loaded will pass the checks; in ring 0 the stack stays. -/
structure ProcCtxt.Valid (gdt : Table) (c : ProcCtxt) : Prop where
  code : (gdt.returnCode 0 (selectorOf c.cs)).isOk
  stack : ring c.cs ≠ 0 → (gdt.loadStack (ring c.cs) (selectorOf c.ss)).isOk
  data : ∀ r, (gdt.loadData (ring c.cs) ((Cpu.ofCtxt c).seg r)).isOk

theorem AllPass.loadSeg {disp : ℕ} {dst : Seg} {sel : Selector}
    (word : selectorOf (stack (Word32.sub (cpu.reg .esp) disp)) = sel)
    (loads : (gdt.loadData (ring cpu.cs) sel).isOk)
    (rest : AllPass gdt junk is ⟨cpu.setSeg dst sel, stack, sched⟩) :
    AllPass gdt junk (.loadSeg disp dst :: is) ⟨cpu, stack, sched⟩ := by
  subst word
  refine ⟨loads, fun m' run => ?_⟩
  obtain rfl : _ = m' := congrArg Prod.snd (Except.ok.inj run)
  exact rest

variable (junk stack) in
/-- The general registers are restored without a check. -/
theorem restoreRegs_run (sched : Sched) (esp : cpu.reg .esp = Word32.sub top 68) :
    ∃ cpu', execAll junk ((intHandleProcSwitch.take 30).drop 22) ⟨cpu, stack, sched⟩
        = .ok ((), ⟨cpu', stack, sched⟩) ∧
      cpu'.reg .esp = Word32.sub top 20 ∧ cpu'.cs = cpu.cs := by
  simp (disch := omega) only [intHandleProcSwitch, List.take, List.drop, execAll_addEsp,
    execAll_load, execAll_nil, setReg_reg, esp, Word32.sub_sub, Word32.add_sub, reduceCtorEq,
    if_true, if_false, Nat.reduceAdd, Nat.reduceSub]
  refine ⟨_, rfl, ?_, rfl⟩
  simp only [setReg_reg, reduceCtorEq, if_true, if_false]

/-- `iret` to valid code. -/
theorem iret_passes (valid : c.Valid gdt) (sched : Sched)
    (esp : cpu.reg .esp = Word32.sub top 20) (handler : ring cpu.cs = 0)
    (code : stack (Word32.sub top 16) = c.cs) (ss : stack (Word32.sub top 4) = c.ss)
    (segs : cpu.seg = (Cpu.ofCtxt c).seg) : Instr.iret.Passes gdt ⟨cpu, stack, sched⟩ := by
  have target : selectorOf (stack (Word32.add (cpu.reg .esp) 4)) = selectorOf c.cs := by
    simp (disch := omega) only [esp, Word32.add_sub, Nat.reduceSub, code]
  have inner : stack (Word32.add (cpu.reg .esp) 16) = c.ss := by
    simp (disch := omega) only [esp, Word32.add_sub, Nat.reduceSub, ss]
  unfold Instr.Passes
  simp only [esp_mk, target, inner, handler, ring_selectorOf, segs]
  exact ⟨valid.code, fun outer => ⟨valid.stack outer.ne', fun r => Table.revoke_eq (valid.data r)⟩⟩

variable (junk) in
/-- **The context of a process passes the checks of the handler.** -/
theorem restore_passes (valid : c.Valid gdt) (sched : Sched)
    (esp : cpu.reg .esp = Word32.sub top 68) (handler : ring cpu.cs = 0)
    (frame : readCtxt stack (Word32.sub top 64) = c) :
    AllPass gdt junk (intHandleProcSwitch.drop 22) ⟨cpu, stack, sched⟩ := by
  obtain ⟨cpu', run, esp', cs⟩ := restoreRegs_run junk stack sched esp
  have words : c.gs = stack (Word32.sub top 52) ∧ c.fs = stack (Word32.sub top 56) ∧
      c.es = stack (Word32.sub top 60) ∧ c.ds = stack (Word32.sub top 64) ∧
      c.cs = stack (Word32.sub top 16) ∧ c.ss = stack (Word32.sub top 4) := by
    rw [← frame]
    simp (disch := omega) only [readCtxt, Word32.add_sub, Nat.reduceSub, and_self]
  obtain ⟨gs, fs, es, ds, csWord, ssWord⟩ := words
  have code : intHandleProcSwitch.drop 22 = (intHandleProcSwitch.take 30).drop 22 ++
      [.loadSeg 32 .gs, .loadSeg 36 .fs, .loadSeg 40 .es, .loadSeg 44 .ds, .iret] := rfl
  rw [code]
  refine (AllPass.of_plain (by decide)).append fun m' run' => ?_
  rw [run] at run'
  obtain rfl : _ = m' := congrArg Prod.snd (Except.ok.inj run')
  -- The handler is further in than the process.
  have level : ring cpu'.cs = 0 := by rw [cs, handler]
  have loads : ∀ r, (gdt.loadData (ring cpu'.cs) ((Cpu.ofCtxt c).seg r)).isOk := fun r => by
    rw [level]
    exact Table.loadData_inner (Nat.zero_le _) (valid.data r)
  have slot : ∀ d, Word32.sub (cpu'.reg .esp) d = Word32.sub top (20 + d) := fun d => by
    rw [esp', Word32.sub_sub]
  refine .loadSeg (by rw [slot, ← gs]; rfl) (loads .gs) ?_
  refine .loadSeg (by rw [setSeg_reg, slot, ← fs]; rfl) (loads .fs) ?_
  refine .loadSeg (by rw [setSeg_reg, setSeg_reg, slot, ← es]; rfl) (loads .es) ?_
  refine .loadSeg (by rw [setSeg_reg, setSeg_reg, setSeg_reg, slot, ← ds]; rfl) (loads .ds) ?_
  refine ⟨iret_passes valid sched esp' level csWord.symm ssWord.symm (funext fun r => ?_),
    fun _ _ => trivial⟩
  cases r <;> rfl

variable (junk) in
/-- The handler when its calls have returned. -/
theorem entered_calls {s : Sched} (address : ℕ)
    (next : procNext (m.sched.storeCtxt m.frame) = .ok ((), s)) :
    ∃ cpu stack, execAll junk (intHandleProcSwitch.take 22) (m.entered address none) =
        .ok ((), ⟨cpu, stack, s⟩) ∧ cpu.reg .esp = Word32.sub m.frameEnd 68 ∧
      ring cpu.cs = 0 ∧
      readCtxt stack (Word32.sub m.frameEnd 64) = (s.procTable s.pid).ctxt := by
  obtain ⟨S, entry, saved, -⟩ := interrupt_entry m
  have esp := handlerCpu_esp m
  have handler : ring m.handlerCpu.cs = 0 := ring_gdtSelCodePl0
  generalize m.handlerCpu = cpu at entry saved esp handler
  -- The address of the handler and the flags make no difference to the frame.
  obtain ⟨cpu₀, named⟩ : ∃ cpu₀ : Cpu, cpu₀ = ⟨cpu.reg, cpu.seg, address, cpu.cs,
    entryFlags true m.cpu.eflags, cpu.ss⟩ := ⟨_, rfl⟩
  have start : m.entered address none = ⟨cpu₀, S, m.sched⟩ := by
    unfold Machine.entered Machine.pushError
    rw [entry, named]
    rfl
  have esp₀ : cpu₀.reg .esp = Word32.sub m.frameEnd 20 := by rw [named, esp]
  have handler₀ : ring cpu₀.cs = 0 := by rw [named, handler]
  have saved₀ : savedCtxt cpu₀ S m.frameEnd = m.frame := by
    rw [named]
    exact saved
  obtain ⟨S', run, frame, arg, -⟩ := save_run junk S m.sched esp₀
  have esp₁ : ((cpu₀.setReg .eax (Word32.sub m.frameEnd 64)).setReg .esp
      (Word32.sub m.frameEnd 68)).reg .esp = Word32.sub m.frameEnd 68 := by
    rw [setReg_reg, if_pos rfl]
  obtain ⟨cpu₁, named₁⟩ : ∃ cpu₁, cpu₁ = (cpu₀.setReg .eax (Word32.sub m.frameEnd 64)).setReg .esp
    (Word32.sub m.frameEnd 68) := ⟨_, rfl⟩
  have cs₁ : cpu₁.cs = cpu₀.cs := by
    rw [named₁]
    rfl
  rw [← named₁] at run esp₁
  have next₁ : procNext ((Machine.mk cpu₁ S' m.sched).sched.storeCtxt
      (readCtxt (Machine.mk cpu₁ S' m.sched).stack (Word32.sub m.frameEnd 64))) = .ok ((), s) := by
    dsimp only
    rw [frame, saved₀]
    exact next
  obtain ⟨⟨cpu₂, stack₂, s₂⟩, run₂, called, sched₂, frame₂, -⟩ := calls_run junk esp₁ arg next₁
  obtain rfl : s₂ = s := sched₂
  refine ⟨cpu₂, stack₂, ?_, called.esp.trans esp₁, ?_, frame₂⟩
  · rw [start, show intHandleProcSwitch.take 22 = intHandleProcSwitch.take 18 ++
      (intHandleProcSwitch.take 22).drop 18 from rfl, execAll_append junk run]
    exact run₂
  · rw [called.cs]
    exact (congrArg (fun cs : Selector => ring cs) cs₁).trans handler₀

variable (junk) in
/-- **The handler passes its checks** when the next process is to resume a valid
context. -/
theorem handler_passes {s : Sched} (address : ℕ)
    (next : procNext (m.sched.storeCtxt m.frame) = .ok ((), s))
    (valid : (s.procTable s.pid).ctxt.Valid gdt) :
    AllPass gdt junk intHandleProcSwitch (m.entered address none) := by
  obtain ⟨cpu, stack, run, esp, handler, frame⟩ := entered_calls junk address next
  rw [← List.take_append_drop 22 intHandleProcSwitch]
  refine (AllPass.of_plain (by decide)).append fun m' run' => ?_
  rw [run] at run'
  obtain rfl : _ = m' := congrArg Prod.snd (Except.ok.inj run')
  exact restore_passes junk valid s esp handler frame

/-! ## The invariant -/

/-- **What is loaded, and what waits to be loaded, passes the checks.** -/
structure SegmentsValid (gdt : Table) (m : Machine) : Prop where
  cpu : m.cpu.Valid gdt
  ctxts : ∀ p, (m.sched.procTable p).state ≠ .dead → p ≠ m.sched.pid →
    (m.sched.procTable p).ctxt.Valid gdt

/-- The context of the interrupted code. -/
theorem Cpu.Valid.frame (valid : m.cpu.Valid gdt) : m.frame.Valid gdt where
  code := by
    rw [frame_cs, selectorOf_val]
    exact valid.code
  stack user := by
    rw [frame_cs] at user ⊢
    unfold Machine.frame
    rw [if_neg user]
    change (gdt.loadStack _ (selectorOf m.cpu.ss)).isOk
    rw [selectorOf_val]
    exact valid.stack
  data r := by
    have same : (Cpu.ofCtxt m.frame).seg r = m.cpu.seg r := by
      unfold Machine.frame
      split_ifs
      · cases r <;> exact selectorOf_val _
      · rw [ofCtxt_ctxt]
    rw [frame_cs, same]
    exact valid.data r

/-- The registers after the `iret`. -/
theorem ProcCtxt.Valid.resumed (valid : c.Valid gdt) (top : ℕ) {ss : Selector}
    (kernel : (gdt.loadStack 0 ss).isOk) : (TrashOS.resumed c top ss).Valid gdt := by
  unfold TrashOS.resumed
  split_ifs with ring₀
  · refine ⟨valid.code, ?_, fun r => ?_⟩
    · change (gdt.loadStack (ring (selectorOf c.cs)) ss).isOk
      rw [ring_selectorOf, ring₀]
      exact kernel
    · change (gdt.loadData (ring (selectorOf c.cs)) ((Cpu.ofCtxt c).seg r)).isOk
      rw [ring_selectorOf]
      exact valid.data r
  · refine ⟨valid.code, ?_, fun r => ?_⟩
    · change (gdt.loadStack (ring (selectorOf c.cs)) (selectorOf c.ss)).isOk
      rw [ring_selectorOf]
      exact valid.stack ring₀
    · change (gdt.loadData (ring (selectorOf c.cs)) ((Cpu.ofCtxt c).seg r)).isOk
      rw [ring_selectorOf]
      exact valid.data r

theorem loadStack_isOk (address : tss < 2 ^ 32) {cpl : ℕ} {sel : Selector}
    (kind : cpl = 0 ∧ sel = gdtSelDataPl0 ∨ cpl = 3 ∧ (sel : ℕ) = gdtSelDataPl3) :
    ((gdtTable tss behind).loadStack cpl sel).isOk := by
  have ours : cpl = 0 ∧ (sel : ℕ) = 0x10 ∨ cpl = 3 ∧ (sel : ℕ) = 0x2b := by
    obtain ⟨rfl, rfl⟩ | ⟨rfl, same⟩ := kind
    · exact Or.inl ⟨rfl, rfl⟩
    · exact Or.inr ⟨rfl, same⟩
  rw [(gdtTable_loadStack address).mpr ⟨ours, rfl⟩]
  rfl

/-- The two code segments. -/
theorem returnCode_isOk (address : tss < 2 ^ 32) {sel : Selector}
    (kind : (sel : ℕ) = 0x08 ∨ (sel : ℕ) = 0x23) :
    ((gdtTable tss behind).returnCode 0 sel).isOk := by
  obtain same | same := kind
  · rw [(gdtTable_returnCode address).mpr (Or.inl ⟨rfl, same, rfl⟩)]
    rfl
  · rw [(gdtTable_returnCode address).mpr (Or.inr ⟨Nat.zero_le 3, same, rfl⟩)]
    rfl

/-- The stack segment of the handler. -/
theorem handlerSs_valid (address : tss < 2 ^ 32) (valid : m.cpu.Valid (gdtTable tss behind)) :
    ((gdtTable tss behind).loadStack 0 m.handlerSs).isOk := by
  unfold Machine.handlerSs
  split_ifs with kernel
  · exact kernel ▸ valid.stack
  · exact loadStack_isOk address (Or.inl ⟨rfl, rfl⟩)

/-- The context `proc_register` writes. -/
theorem initialCtxt_valid (address : tss < 2 ^ 32) (entryPoint : ℕ) (c : ProcCtxt) :
    (initialCtxt entryPoint c).Valid (gdtTable tss behind) where
  code := returnCode_isOk address (Or.inr rfl)
  stack _ := loadStack_isOk address (Or.inr ⟨ring_gdtSelCodePl3, rfl⟩)
  data r := by
    have same : (((Cpu.ofCtxt (initialCtxt entryPoint c)).seg r : Selector) : ℕ) = 0x2b := by
      cases r <;> rfl
    rw [same]
    exact (gdtTable_loadData address).mpr (Or.inr (Or.inl ⟨Or.inr rfl, ring_gdtSelCodePl3.le⟩))

/-- The contexts in the process table when the scheduler has run. -/
theorem ctxts_valid {s : Sched} (inv : SchedInv m.sched nodes)
    (valid : SegmentsValid gdt m) (perm : (pidsOf s nodes').Perm (pidsOf m.sched nodes))
    (ctxts : ∀ p, (s.procTable p).ctxt = ((m.sched.storeCtxt m.frame).procTable p).ctxt) (p : ℕ)
    (member : p ∈ pidsOf s nodes') : (s.procTable p).ctxt.Valid gdt := by
  rw [ctxts, storeCtxt_ctxt]
  split_ifs with current
  · exact valid.cpu.frame
  · exact valid.ctxts p ((inv.registered p).mp (perm.mem_iff.mp member)) current

variable (junk) in
/-- **A timer interrupt passes every check**, does what `tick` does, and keeps the
invariant. -/
theorem guardedTick_keeps (handlers : ∀ h, code h < 2 ^ 32) (address : tss < 2 ^ 32)
    (inv : SwitchInv m nodes) (valid : SegmentsValid (gdtTable tss behind) m) :
    ∃ m', guardedTick (loadedTables code tss behind behind') code junk m = .ok ((), m') ∧
      tick junk m = .ok ((), m') ∧ SegmentsValid (gdtTable tss behind) m' := by
  obtain ⟨s, nodes₁, next, ticked, inv₁, -⟩ :=
    procNext_keeps (inv.sched.storeCtxt m.frame) (inv.base.storeCtxt m.frame)
  obtain ⟨m', run, sched, cpu, -⟩ := tick_run junk next
  subst sched
  have ctxts := ctxts_valid inv.sched valid ticked.pids ticked.ctxts
  have resumes := ctxts _ inv₁.pid_mem
  refine ⟨m', ?_, run, ?_, fun p registered _ => ctxts p ((inv₁.registered p).mpr registered)⟩
  · have entry : m.deliver (loadedTables code tss behind behind') idtVectorTimer .external none =
        .ok (some (m.entered (code .procSwitch) none)) :=
      deliver_run handlers address (by decide) nofun
    unfold guardedTick
    rw [entry]
    dsimp only
    rw [if_pos (show (m.entered (code .procSwitch) none).cpu.eip = code .procSwitch from rfl)]
    change execGuarded (gdtTable tss behind) junk _ _ = _
    rw [execGuarded_eq (handler_passes junk _ next resumes), entered_tick, run]
    rfl
  · rw [cpu]
    exact resumes.resumed _ (handlerSs_valid address valid.cpu)

/-! ## Runs -/

/-- What happens between two moments: code runs without touching its segment registers,
loads one of them through the checks, the kernel registers a process, or the timer
interrupts.  A fault or the instruction `int` in ring 3 ends in a handler that halts. -/
inductive GuardedStep (tables : Tables) (code : Handler → ℕ) : Machine → Machine → Prop
  | execute {m : Machine} {reg : Reg → ℕ} {eip eflags : ℕ} {stack : ℕ → ℕ}
      (user : ring m.cpu.cs ≠ 0 → stack = m.stack) :
      GuardedStep tables code m
        ⟨{ m.cpu with reg := reg, eip := eip, eflags := eflags }, stack, m.sched⟩
  | loadData {m : Machine} {r : Seg} {sel : Selector}
      (loads : (tables.gdt.loadData (ring m.cpu.cs) sel).isOk) :
      GuardedStep tables code m { m with cpu := m.cpu.setSeg r sel }
  | loadStack {m : Machine} {sel : Selector}
      (loads : (tables.gdt.loadStack (ring m.cpu.cs) sel).isOk) :
      GuardedStep tables code m { m with cpu := { m.cpu with ss := sel } }
  | farJump {m : Machine} {sel : Selector} {cs eip : ℕ}
      (goes : tables.gdt.farTarget (ring m.cpu.cs) sel = .ok (.code cs)) :
      GuardedStep tables code m { m with cpu := { m.cpu with cs := selectorOf cs, eip := eip } }
  | farReturn {m : Machine} {sel : Selector} {eip : ℕ} (same : ring sel = ring m.cpu.cs)
      (returns : (tables.gdt.returnCode (ring m.cpu.cs) sel).isOk) :
      GuardedStep tables code m { m with cpu := { m.cpu with cs := sel, eip := eip } }
  | register {m : Machine} {memory : RegisterMemory} {entryPoint priority pid : ℕ} {s : Sched}
      (kernel : m.sched.pid = 0) (fresh : Fresh m.sched memory)
      (remains : ∃ p < pidMax, (m.sched.procTable p).state = .dead)
      (returned : procRegister memory entryPoint priority m.sched = .ok (pid, s)) :
      GuardedStep tables code m ⟨m.cpu, m.stack, s⟩
  | tick {m m' : Machine} {junk : Callee → Clobber}
      (returned : guardedTick tables code junk m = .ok ((), m')) : GuardedStep tables code m m'

/-- What a machine is known to satisfy in a run. -/
def Guarded (gdt : Table) (m : Machine) : Prop :=
  ∃ latest nodes, SwitchInv m nodes ∧ Saved ⟨m, latest⟩ nodes ∧ SegmentsValid gdt m

/-- **Every step keeps the invariant.** -/
theorem GuardedStep.keeps (handlers : ∀ h, code h < 2 ^ 32) (address : tss < 2 ^ 32)
    (step : GuardedStep (loadedTables code tss behind behind') code m m')
    (guarded : Guarded (gdtTable tss behind) m) : Guarded (gdtTable tss behind) m' := by
  obtain ⟨latest, nodes, inv, saved, valid⟩ := guarded
  -- A change of the registers in one ring.
  have executes : ∀ {cpu : Cpu} {stack : ℕ → ℕ}, ring cpu.cs = ring m.cpu.cs →
      (ring m.cpu.cs ≠ 0 → stack = m.stack) → cpu.Valid (gdtTable tss behind) →
        Guarded (gdtTable tss behind) ⟨cpu, stack, m.sched⟩ := by
    intro cpu stack level user cpuValid
    obtain ⟨nodes', inv', saved'⟩ :=
      (SwitchStep.execute (w := ⟨m, latest⟩) level user).keeps inv saved
    exact ⟨latest, nodes', inv', saved', cpuValid, valid.ctxts⟩
  cases step with
  | execute user => exact executes rfl user ⟨valid.cpu.code, valid.cpu.stack, valid.cpu.data⟩
  | loadData loads =>
      refine executes rfl (fun _ => rfl) ⟨valid.cpu.code, valid.cpu.stack, fun r' => ?_⟩
      rw [setSeg_seg]
      split_ifs
      · exact loads
      · exact valid.cpu.data r'
  | loadStack loads => exact executes rfl (fun _ => rfl) ⟨valid.cpu.code, loads, valid.cpu.data⟩
  | farJump goes =>
      have target := gdtTable_farCode address goes
      have level : ∀ cs : ℕ, ring m.cpu.cs = 0 ∧ cs = 0x08 ∨ ring m.cpu.cs = 3 ∧ cs = 0x23 →
          ring (selectorOf cs) = ring m.cpu.cs ∧
            ((selectorOf cs : ℕ) = 0x08 ∨ (selectorOf cs : ℕ) = 0x23) := by
        rintro cs (⟨kernel, rfl⟩ | ⟨user, rfl⟩)
        · exact ⟨kernel.symm, Or.inl rfl⟩
        · exact ⟨user.symm, Or.inr rfl⟩
      obtain ⟨same, kind⟩ := level _ target
      refine executes same (fun _ => rfl) ⟨returnCode_isOk address kind, ?_, fun r => ?_⟩
      · exact same ▸ valid.cpu.stack
      · exact same ▸ valid.cpu.data r
  | farReturn same returns =>
      obtain ⟨d, loads⟩ := Except.exists_of_isOk returns
      have kind := ((gdtTable_returnCode address).mp loads).imp (·.2.1) (·.2.1)
      refine executes same (fun _ => rfl) ⟨returnCode_isOk address kind, ?_, fun r => ?_⟩
      · exact same ▸ valid.cpu.stack
      · exact same ▸ valid.cpu.data r
  | register kernel fresh remains returned =>
      rename_i memory entryPoint priority pid s
      obtain ⟨pid', s', run, reg, inv', -⟩ :=
        procRegister_keeps entryPoint priority inv.sched inv.base fresh remains
      obtain ⟨rfl, rfl⟩ : pid' = pid ∧ s' = s := by
        rw [run] at returned
        simpa using returned
      obtain ⟨nodes₂, inv₂, saved₂⟩ :=
        (SwitchStep.register (w := ⟨m, latest⟩) kernel fresh remains run).keeps inv saved
      refine ⟨_, nodes₂, inv₂, saved₂, valid.cpu, fun p registered other => ?_⟩
      change (s'.procTable p).state ≠ .dead at registered
      change p ≠ s'.pid at other
      change ProcCtxt.Valid _ (s'.procTable p).ctxt
      have member := (inv'.registered p).mpr registered
      rw [reg.pids, List.mem_append, List.mem_singleton] at member
      rw [reg.current] at other
      rw [reg.table, registeredTable]
      by_cases isPid : p = pid'
      · rw [isPid, Function.update_self]
        exact initialCtxt_valid address entryPoint _
      · rw [Function.update_of_ne isPid]
        exact valid.ctxts p ((inv.sched.registered p).mp (member.resolve_right isPid)) other
  | tick returned =>
      rename_i junk
      obtain ⟨m'', run, unguarded, valid'⟩ := guardedTick_keeps junk handlers address inv valid
      obtain rfl : m'' = m' := by
        rw [run] at returned
        exact congrArg Prod.snd (Except.ok.inj returned)
      obtain ⟨nodes', inv', saved'⟩ :=
        (SwitchStep.tick (w := ⟨m, latest⟩) unguarded).keeps inv saved
      exact ⟨_, nodes', inv', saved', valid'⟩

/-- The invariant holds when `proc_init` has returned to the kernel with the registers
`gdt_init` left. -/
theorem guarded_of_init {s₀ : Sched} {memory : InitMemory} (address : tss < 2 ^ 32)
    (zeroed : Zeroed s₀) (fresh : InitFresh memory)
    (init : procInit memory s₀ = .ok ((), m.sched)) (cs : m.cpu.cs = gdtSelCodePl0)
    (ss : m.cpu.ss = gdtSelDataPl0) (segs : ∀ r, m.cpu.seg r = gdtSelDataPl0) :
    Guarded (gdtTable tss behind) m := by
  have kernel : ring m.cpu.cs = 0 := by rw [cs, ring_gdtSelCodePl0]
  obtain ⟨nodes, inv, saved⟩ := switchInv_of_init zeroed fresh init kernel
  obtain ⟨s, nodes', run, booted, -⟩ := procInit_booted zeroed fresh
  obtain rfl : s = m.sched := by
    rw [run] at init
    simpa using init
  refine ⟨_, nodes, inv, saved, ⟨?_, ?_, fun r => ?_⟩, fun p registered other => ?_⟩
  · exact returnCode_isOk address (Or.inl (by rw [cs]; rfl))
  · exact loadStack_isOk address (Or.inl ⟨kernel, ss⟩)
  · rw [segs, kernel]
    exact (gdtTable_loadData address).mpr (Or.inr (Or.inr ⟨Or.inr rfl, rfl⟩))
  · obtain ⟨entryPoint, c, written⟩ := booted.written p ((booted.inv.registered p).mpr registered)
      (booted.kernel ▸ other)
    rw [written]
    exact initialCtxt_valid address entryPoint c

/-- The selectors of the current process. -/
theorem Guarded.selectors (address : tss < 2 ^ 32) (guarded : Guarded (gdtTable tss behind) m) :
    (m.sched.pid = 0 → m.cpu.cs = gdtSelCodePl0 ∧ m.cpu.ss = gdtSelDataPl0) ∧
      (m.sched.pid ≠ 0 → (m.cpu.cs : ℕ) = gdtSelCodePl3 ∧ (m.cpu.ss : ℕ) = gdtSelDataPl3 ∧
        ∀ r, (m.cpu.seg r : ℕ) < 4 ∨ (m.cpu.seg r : ℕ) / 4 = 8 ∨ (m.cpu.seg r : ℕ) / 4 = 10) := by
  obtain ⟨latest, nodes, inv, -, ⟨code, stack, data⟩, -⟩ := guarded
  obtain ⟨d, returns⟩ := Except.exists_of_isOk code
  obtain ⟨e, loads⟩ := Except.exists_of_isOk stack
  have cs := ((gdtTable_returnCode address).mp returns).imp (·.2.1) (·.2.1)
  have ss := ((gdtTable_loadStack address).mp loads).1
  refine ⟨fun kernel => ?_, fun user => ?_⟩
  · have level : ring m.cpu.cs = 0 := by rw [inv.level, ringOf, if_pos kernel]
    refine ⟨Fin.ext ?_, Fin.ext (ss.resolve_right fun both => by omega).2⟩
    refine cs.resolve_right fun same => ?_
    rw [same] at level
    exact absurd level (by decide)
  · have level : ring m.cpu.cs = 3 := by rw [inv.level, ringOf, if_neg user]
    refine ⟨cs.resolve_left fun same => ?_, (ss.resolve_left fun both => by omega).2, fun r => ?_⟩
    · rw [same] at level
      exact absurd level (by decide)
    · have loaded := (gdtTable_loadData address).mp (data r)
      rw [level] at loaded
      exact loaded.imp_right fun either => (either.resolve_right fun both => by omega).1

/-- **No run faults in the timer handler.** From the registers that `gdt_init` leaves and the
processes of `proc_init` on, however code in both rings loads its segment registers and whenever
the timer interrupts, the handler passes every check of the processor and does what `tick` does;
the kernel runs on its own segments, and a process on those of ring 3 with nothing of ring 0
loaded.  `GuardedStep` lets code in both rings load any selector the processor accepts, so the run
can leave odd but valid selectors behind, which the handler saves and loads again. -/
theorem guardedTick_of_run {gdt idt : ℕ} {p p' : Processor} {s₀ : Sched} {memory : InitMemory}
    {m₀ : Machine} (kernel : ring p.cpu.cs = 0) (gdtAddress : gdt < 2 ^ 32)
    (idtAddress : idt < 2 ^ 32) (address : tss < 2 ^ 32) (handlers : ∀ h, code h < 2 ^ 32)
    (boot : (do
      gdtInit gdt tss
      intInit code idt : Prog Processor Fault Unit) p = .ok ((), p'))
    (zeroed : Zeroed s₀) (fresh : InitFresh memory)
    (init : procInit memory s₀ = .ok ((), m₀.sched))
    (registers : m₀.cpu.cs = p'.cpu.cs ∧ m₀.cpu.ss = p'.cpu.ss ∧ m₀.cpu.seg = p'.cpu.seg)
    (run : Relation.ReflTransGen (GuardedStep p'.tables code) m₀ m) :
    (∀ junk, ∃ m', guardedTick p'.tables code junk m = .ok ((), m') ∧
        tick junk m = .ok ((), m')) ∧
      (m.sched.pid = 0 → m.cpu.cs = gdtSelCodePl0 ∧ m.cpu.ss = gdtSelDataPl0) ∧
      (m.sched.pid ≠ 0 → (m.cpu.cs : ℕ) = gdtSelCodePl3 ∧ (m.cpu.ss : ℕ) = gdtSelDataPl3 ∧
        ∀ r, (m.cpu.seg r : ℕ) < 4 ∨ (m.cpu.seg r : ℕ) / 4 = 8 ∨
          (m.cpu.seg r : ℕ) / 4 = 10) := by
  obtain ⟨mem, behind, behind', booted⟩ := boot_run kernel gdtAddress idtAddress address code
  obtain rfl := congrArg Prod.snd (Except.ok.inj (booted.symm.trans boot))
  obtain ⟨cs, ss, seg⟩ := registers
  have guarded : Guarded (gdtTable tss behind) m := by
    induction run with
    | refl => exact guarded_of_init address zeroed fresh init cs ss fun r => congrFun seg r
    | tail _ step ih => exact step.keeps handlers address ih
  obtain ⟨latest, nodes, inv, -, valid⟩ := id guarded
  refine ⟨fun junk => ?_, guarded.selectors address⟩
  obtain ⟨m', checked, unguarded, -⟩ := guardedTick_keeps junk handlers address inv valid
  exact ⟨m', checked, unguarded⟩

/-- The timer interrupts the kernel after its boot, and then the process it resumed. -/
theorem guardedTick_of_loader :
    ∃ p' s m₁ m₂, (do
        gdtInit 0xE0005000 0xE0005040
        intInit sampleCode 0xE0006000 : Prog Processor Fault Unit) loaderProcessor =
          .ok ((), p') ∧
      procInit sampleInitMemory zeroSched = .ok ((), s) ∧
      guardedTick p'.tables sampleCode zeroJunk (bootMachine 0xFFFFFF00 s) = .ok ((), m₁) ∧
      m₁.sched.pid = 1 ∧ (m₁.cpu.cs : ℕ) = gdtSelCodePl3 ∧ (m₁.cpu.ss : ℕ) = gdtSelDataPl3 ∧
      guardedTick p'.tables sampleCode zeroJunk m₁ = .ok ((), m₂) ∧
      tick zeroJunk m₁ = .ok ((), m₂) := by
  have zeroed : Zeroed zeroSched := ⟨rfl, rfl, rfl, rfl⟩
  have fresh : InitFresh sampleInitMemory := ⟨by decide, by decide⟩
  obtain ⟨s, nodes, init, -, -⟩ := procInit_booted zeroed fresh
  have kernel : ring loaderProcessor.cpu.cs = 0 := by decide
  have gdtAddress : 0xE0005000 < 2 ^ 32 := by decide
  have idtAddress : 0xE0006000 < 2 ^ 32 := by decide
  have address : 0xE0005040 < 2 ^ 32 := by decide
  obtain ⟨mem, behind, behind', boot⟩ := boot_run kernel gdtAddress idtAddress address sampleCode
  have runs := fun {m} => guardedTick_of_run (m := m) kernel gdtAddress idtAddress address
    sampleCode_lt boot zeroed fresh
    (show procInit sampleInitMemory zeroSched = .ok ((), (bootMachine 0xFFFFFF00 s).sched)
      from init) ⟨rfl, rfl, rfl⟩
  obtain ⟨m₁, first, switched⟩ := (runs .refl).1 zeroJunk
  have current : m₁.sched.pid = 1 := by
    have check : (match procInit sampleInitMemory zeroSched with
        | .ok (_, s) =>
            match tick zeroJunk (bootMachine 0xFFFFFF00 s) with
            | .ok (_, m) => m.sched.pid
            | .error _ => 0
        | .error _ => 0) = 1 := by decide +kernel
    simp only [init, switched] at check
    exact check
  obtain ⟨returns, -, user⟩ := runs (.single (.tick first))
  obtain ⟨cs, ss, -⟩ := user (current ▸ Nat.one_ne_zero)
  obtain ⟨m₂, second, unguarded⟩ := returns zeroJunk
  exact ⟨_, s, m₁, m₂, boot, init, first, current, cs, ss, second, unguarded⟩

end TrashOS
