import TrashOS.Proc.Handler
import TrashOS.Proc.Queue

/-!
# Register state across preemption

The kernel (PID 0) runs in ring 0, every registered process in ring 3.
`tick_keeps` describes one timer interrupt on top of the scheduler invariant: the
context of the interrupted process goes to the process table, those of all others
stay, and the processor resumes the context of the process that is current then.

* For processes in ring 3 the context is the whole register state, so every
  process finds the registers of its latest interruption (`registers_preserved`).
* For the kernel the last two fields are words of its own stack, and `iret` does
  not pop them.  When another process runs in between, the kernel comes back on
  the stack of the TSS (`kernel_transparent_iff`).
-/

namespace TrashOS

variable {junk : Callee → Clobber} {m m' : Machine} {nodes nodes' : List ℕ}

/-! ## The invariant -/

/-- The ring a process runs in. -/
def ringOf (p : ℕ) : ℕ := if p = 0 then 0 else 3

/-- The scheduler invariant; besides, the processor and the contexts of all
processes that are not current are in the rings of their processes. -/
structure SwitchInv (m : Machine) (nodes : List ℕ) : Prop where
  sched : SchedInv m.sched nodes
  base : SchedBase m.sched nodes
  level : ring m.cpu.cs = ringOf m.sched.pid
  levels : ∀ p ∈ pidsOf m.sched nodes, p ≠ m.sched.pid →
    ring (m.sched.procTable p).ctxt.cs = ringOf p

/-- Storing a context changes no other field of the process table. -/
theorem storeCtxt_field {β : Type} {f : Proc → β} (fixed : ∀ p c, f { p with ctxt := c } = f p)
    (s : Sched) (c : ProcCtxt) (p : ℕ) : f ((s.storeCtxt c).procTable p) = f (s.procTable p) := by
  unfold Sched.storeCtxt
  simp only [Function.update_apply]
  split_ifs with same
  · rw [fixed, same]
  · rfl

theorem storeCtxt_ctxt (s : Sched) (c : ProcCtxt) (p : ℕ) :
    ((s.storeCtxt c).procTable p).ctxt = if p = s.pid then c else (s.procTable p).ctxt := by
  unfold Sched.storeCtxt
  simp only [Function.update_apply]
  split_ifs
  · rfl
  · rfl

theorem SchedInv.storeCtxt {s : Sched} (inv : SchedInv s nodes) (c : ProcCtxt) :
    SchedInv (s.storeCtxt c) nodes := by
  have state := storeCtxt_field (f := Proc.state) (fun _ _ => rfl) s c
  refine ⟨⟨inv.queue.list, inv.queue.last⟩, inv.nodup, fun p => ?_, inv.head, ?_,
    fun p member other => ?_, inv.count⟩
  · rw [state]
    exact inv.registered p
  · exact (state s.pid).trans inv.running
  · rw [state]
    exact inv.active p member other

theorem SchedBase.storeCtxt {s : Sched} (base : SchedBase s nodes) (c : ProcCtxt) :
    SchedBase (s.storeCtxt c) nodes := by
  have tables := storeCtxt_field (f := Proc.pageTables) (fun _ _ => rfl) s c
  have state := storeCtxt_field (f := Proc.state) (fun _ _ => rfl) s c
  refine ⟨base.word, base.next, fun p => ?_, fun p dead => ?_⟩
  · obtain ⟨list, found⟩ := base.lists p
    exact ⟨list, found.congr rfl (tables p)⟩
  · rw [tables]
    rw [state] at dead
    exact base.unused p dead

/-! ## One interrupt -/

/-- What a timer interrupt does. -/
structure Switched (m m' : Machine) (nodes nodes' : List ℕ) : Prop where
  pids : (pidsOf m'.sched nodes').Perm (pidsOf m.sched nodes)
  ctxts : ∀ p, (m'.sched.procTable p).ctxt
    = if p = m.sched.pid then m.frame else (m.sched.procTable p).ctxt
  cpu : m'.cpu = resumed (m'.sched.procTable m'.sched.pid).ctxt m.frameEnd m.handlerSs
  frame : readCtxt m'.stack (Word32.sub m.frameEnd 64) = (m'.sched.procTable m'.sched.pid).ctxt
  outside : ∀ a, (∀ k, 0 < k → k ≤ 68 → a ≠ Word32.sub m.frameEnd k) →
    ¬ Below (Word32.sub m.frameEnd 68) a → m'.stack a = m.stack a
  stack : m'.sched.esp0 = m.sched.esp0
  stays : m'.sched.pid = m.sched.pid ↔
    decrement (m.sched.procTable m.sched.pid).execCount ≠ 0 ∨ m.sched.procNum = 0

@[simp] theorem frame_cs (m : Machine) : m.frame.cs = m.cpu.cs := by
  unfold Machine.frame
  split_ifs
  · rfl
  · rfl

theorem resumed_cs (c : ProcCtxt) (top : ℕ) (ss : Selector) :
    ring (resumed c top ss).cs = ring c.cs := by
  unfold resumed
  split_ifs
  · exact ring_selectorOf c.cs
  · exact ring_selectorOf c.cs

/-- **A timer interrupt** returns and keeps the invariant. -/
theorem tick_keeps (inv : SwitchInv m nodes) (junk : Callee → Clobber) :
    ∃ m' nodes', tick junk m = .ok ((), m') ∧ SwitchInv m' nodes' ∧ Switched m m' nodes nodes' := by
  obtain ⟨s, nodes', next, ticked, inv', base'⟩ :=
    procNext_keeps (inv.sched.storeCtxt m.frame) (inv.base.storeCtxt m.frame)
  obtain ⟨m', run, sched, cpu, frame, outside⟩ := tick_run junk next
  subst sched
  have ctxts : ∀ p, (m'.sched.procTable p).ctxt
      = if p = m.sched.pid then m.frame else (m.sched.procTable p).ctxt := fun p => by
    rw [ticked.ctxts, storeCtxt_ctxt]
  have levels : ∀ p ∈ pidsOf m.sched nodes, ring (m'.sched.procTable p).ctxt.cs = ringOf p := by
    intro p member
    rw [ctxts]
    split_ifs with current
    · rw [frame_cs, inv.level, current]
    · exact inv.levels p member current
  have members : ∀ p, p ∈ pidsOf m'.sched nodes' ↔ p ∈ pidsOf m.sched nodes := fun p =>
    ticked.pids.mem_iff
  have count := storeCtxt_field (f := Proc.execCount) (fun _ _ => rfl) m.sched m.frame
  have stays := ticked.stays
  rw [count] at stays
  refine ⟨m', nodes', run, ⟨inv', base', ?_, fun p member _ => levels p ((members p).mp member)⟩,
    ⟨ticked.pids, ctxts, cpu, frame, outside, ticked.stack, stays⟩⟩
  rw [cpu, resumed_cs]
  exact levels _ ((members _).mp inv'.pid_mem)

/-! ## Processes in ring 3 -/

theorem ofCtxt_ctxt (cpu : Cpu) : Cpu.ofCtxt cpu.ctxt = cpu := by
  refine Cpu.ext (funext fun r => ?_) (funext fun r => ?_) rfl ?_ rfl ?_
  · cases r <;> rfl
  · cases r <;> exact selectorOf_val _
  · exact selectorOf_val _
  · exact selectorOf_val _

theorem ring_gdtSelCodePl3 : ring gdtSelCodePl3 = 3 := by decide

/-- The context `proc_register` writes describes a register state. -/
theorem ctxt_ofCtxt_initial (entryPoint : ℕ) (c : ProcCtxt) :
    (Cpu.ofCtxt (initialCtxt entryPoint c)).ctxt = initialCtxt entryPoint c := rfl

/-- The machine, and what is to be preserved: for every process the registers at
its latest interruption, or those `proc_register` wrote. -/
structure World where
  machine : Machine
  latest : ℕ → Cpu

/-- What happens between two moments: the current process executes in its ring,
the kernel registers a process, or the timer interrupts.  Code in ring 3 does not
write supervisor memory; the kernel writes its stack. -/
inductive SwitchStep : World → World → Prop
  | execute {w : World} {cpu : Cpu} {stack : ℕ → ℕ}
      (level : ring cpu.cs = ring w.machine.cpu.cs)
      (user : ring w.machine.cpu.cs ≠ 0 → stack = w.machine.stack) :
      SwitchStep w ⟨⟨cpu, stack, w.machine.sched⟩, w.latest⟩
  | register {w : World} {memory : RegisterMemory} {entryPoint priority pid : ℕ} {s : Sched}
      (kernel : w.machine.sched.pid = 0) (fresh : Fresh w.machine.sched memory)
      (remains : ∃ p < pidMax, (w.machine.sched.procTable p).state = .dead)
      (returned : procRegister memory entryPoint priority w.machine.sched = .ok (pid, s)) :
      SwitchStep w ⟨⟨w.machine.cpu, w.machine.stack, s⟩,
        Function.update w.latest pid (Cpu.ofCtxt (s.procTable pid).ctxt)⟩
  | tick {w : World} {junk : Callee → Clobber} {m : Machine}
      (returned : tick junk w.machine = .ok ((), m)) :
      SwitchStep w ⟨m, Function.update w.latest w.machine.sched.pid w.machine.cpu⟩

/-- The process table holds what is to be preserved of every process in ring 3
that is not current. -/
def Saved (w : World) (nodes : List ℕ) : Prop :=
  ∀ p ∈ pidsOf w.machine.sched nodes, p ≠ w.machine.sched.pid → p ≠ 0 →
    (w.machine.sched.procTable p).ctxt = (w.latest p).ctxt

/-- **A timer interrupt preserves the registers** of every process in ring 3: it
stores those of the interrupted process, leaves those of the others, and resumes
the current process with the registers that were to be preserved. -/
theorem tick_saved {w : World} (inv : SwitchInv w.machine nodes) (saved : Saved w nodes)
    (switched : Switched w.machine m' nodes nodes') :
    Saved ⟨m', Function.update w.latest w.machine.sched.pid w.machine.cpu⟩ nodes' ∧
      (m'.sched.pid ∈ pidsOf w.machine.sched nodes → m'.sched.pid ≠ 0 →
        m'.cpu = Function.update w.latest w.machine.sched.pid w.machine.cpu m'.sched.pid) := by
  have stored : ∀ p ∈ pidsOf w.machine.sched nodes, p ≠ 0 → (m'.sched.procTable p).ctxt
      = (Function.update w.latest w.machine.sched.pid w.machine.cpu p).ctxt := by
    intro p member user
    rw [switched.ctxts, Function.update_apply]
    split_ifs with current
    · have level : ring w.machine.cpu.cs ≠ 0 := by
        rw [inv.level, ringOf, if_neg (current ▸ user)]
        decide
      exact if_neg level
    · exact saved p member current user
  refine ⟨fun p member _ user => stored p (switched.pids.mem_iff.mp member) user,
    fun member user => ?_⟩
  have level : ring (m'.sched.procTable m'.sched.pid).ctxt.cs ≠ 0 := by
    rw [switched.ctxts]
    split_ifs with current
    · rw [frame_cs, inv.level, ringOf, if_neg (current ▸ user)]
      decide
    · rw [inv.levels _ member current, ringOf, if_neg user]
      decide
  rw [switched.cpu, resumed, if_neg level, stored _ member user, ofCtxt_ctxt]

/-- Every step keeps the invariants. -/
theorem SwitchStep.keeps {w w' : World} (step : SwitchStep w w')
    (inv : SwitchInv w.machine nodes) (saved : Saved w nodes) :
    ∃ nodes', SwitchInv w'.machine nodes' ∧ Saved w' nodes' := by
  cases step with
  | execute level user =>
      exact ⟨nodes, ⟨inv.sched, inv.base, level.trans inv.level, inv.levels⟩, saved⟩
  | register kernel fresh remains returned =>
      rename_i memory entryPoint priority pid s
      obtain ⟨pid', s', run, reg, inv', base'⟩ :=
        procRegister_keeps entryPoint priority inv.sched inv.base fresh remains
      obtain ⟨rfl, rfl⟩ : pid' = pid ∧ s' = s := by
        rw [run] at returned
        simpa using returned
      have user : pid' ≠ 0 := by
        intro isKernel
        have dead := reg.dead
        rw [isKernel, ← kernel, inv.sched.running] at dead
        cases dead
      have table : ∀ p, p ≠ pid' → s'.procTable p = w.machine.sched.procTable p := fun p other => by
        rw [reg.table]
        exact Function.update_of_ne other _ _
      have written : (s'.procTable pid').ctxt
          = initialCtxt entryPoint (w.machine.sched.procTable pid').ctxt := by
        rw [reg.table, registeredTable, Function.update_self]
      refine ⟨_, ⟨inv', base', ?_, fun p member other => ?_⟩, fun p member other notKernel => ?_⟩
      · rw [reg.current]
        exact inv.level
      · rw [reg.pids, List.mem_append, List.mem_singleton] at member
        rw [reg.current] at other
        by_cases isPid : p = pid'
        · rw [isPid, written, ringOf, if_neg user]
          exact ring_gdtSelCodePl3
        · rw [table p isPid]
          exact inv.levels p (member.resolve_right isPid) other
      · change (s'.procTable p).ctxt = (Function.update w.latest pid' _ p).ctxt
        change p ∈ pidsOf s' _ at member
        rw [reg.pids, List.mem_append, List.mem_singleton] at member
        change p ≠ s'.pid at other
        rw [reg.current] at other
        by_cases isPid : p = pid'
        · rw [isPid, Function.update_self, written, ctxt_ofCtxt_initial]
        · rw [Function.update_of_ne isPid, table p isPid]
          exact saved p (member.resolve_right isPid) other notKernel
  | tick returned =>
      obtain ⟨m', nodes', run, inv', switched⟩ := tick_keeps inv _
      rw [run] at returned
      cases returned
      exact ⟨nodes', inv', (tick_saved inv saved switched).1⟩

/-- The invariants hold of every state of a run. -/
theorem switch_run {w w' : World} (run : Relation.ReflTransGen SwitchStep w w')
    (inv : SwitchInv w.machine nodes) (saved : Saved w nodes) :
    ∃ nodes', SwitchInv w'.machine nodes' ∧ Saved w' nodes' := by
  induction run with
  | refl => exact ⟨nodes, inv, saved⟩
  | tail _ step ih =>
      obtain ⟨nodes', inv', saved'⟩ := ih
      exact step.keeps inv' saved'

/-- Nothing has been interrupted yet. -/
def World.start (m : Machine) : World := ⟨m, fun p => Cpu.ofCtxt (m.sched.procTable p).ctxt⟩

/-- The invariants hold when `proc_init` has returned to the kernel. -/
theorem switchInv_of_init {s₀ : Sched} {memory : InitMemory} (zeroed : Zeroed s₀)
    (fresh : InitFresh memory) (init : procInit memory s₀ = .ok ((), m.sched))
    (kernel : ring m.cpu.cs = 0) :
    ∃ nodes, SwitchInv m nodes ∧ Saved (World.start m) nodes := by
  obtain ⟨s, nodes, run, booted, -⟩ := procInit_booted zeroed fresh
  obtain rfl : s = m.sched := by
    rw [run] at init
    simpa using init
  refine ⟨nodes, ⟨booted.inv, booted.base, ?_, fun p member other => ?_⟩,
    fun p member other user => ?_⟩
  · rw [kernel, booted.kernel]
    rfl
  · have user : p ≠ 0 := booted.kernel ▸ other
    obtain ⟨entryPoint, c, written⟩ := booted.written p member user
    rw [written, ringOf, if_neg user]
    exact ring_gdtSelCodePl3
  · obtain ⟨entryPoint, c, written⟩ := booted.written p member user
    change (m.sched.procTable p).ctxt = (Cpu.ofCtxt (m.sched.procTable p).ctxt).ctxt
    rw [written, ctxt_ofCtxt_initial]

/-- **Register state of user processes.** In every run of timer interrupts after `proc_init`, with
any execution in between, a timer interrupt returns; if it returns to a process in ring 3, then
with exactly the registers of its latest interruption, or of its registration; and the process
table keeps those of all other processes in ring 3.  `latest` is kept beside the machine, and not
read from the process table: it is what the processor had at the interruption.  Code in ring 3 may
do anything to its registers in between, and the C functions that the handler calls leave their
scratch registers as they like (`junk`). -/
theorem registers_preserved {s₀ : Sched} {memory : InitMemory} {w : World} (zeroed : Zeroed s₀)
    (fresh : InitFresh memory) (init : procInit memory s₀ = .ok ((), m.sched))
    (kernel : ring m.cpu.cs = 0) (run : Relation.ReflTransGen SwitchStep (World.start m) w)
    (junk : Callee → Clobber) :
    ∃ m' latest, tick junk w.machine = .ok ((), m') ∧
      latest = Function.update w.latest w.machine.sched.pid w.machine.cpu ∧
      (m'.sched.pid ≠ 0 → m'.cpu = latest m'.sched.pid) ∧
      ∀ p, (m'.sched.procTable p).state ≠ .dead → p ≠ m'.sched.pid → p ≠ 0 →
        (m'.sched.procTable p).ctxt = (latest p).ctxt := by
  obtain ⟨nodes, inv, saved⟩ := switchInv_of_init zeroed fresh init kernel
  obtain ⟨nodes₁, inv₁, saved₁⟩ := switch_run run inv saved
  obtain ⟨m', nodes', tick, inv', switched⟩ := tick_keeps inv₁ junk
  obtain ⟨saved', resumes⟩ := tick_saved inv₁ saved₁ switched
  refine ⟨m', _, tick, rfl, resumes (switched.pids.mem_iff.mp inv'.sched.pid_mem),
    fun p registered other user => ?_⟩
  exact saved' p ((inv'.sched.registered p).mpr registered) other user

/-- C functions that leave zeros behind. -/
def zeroJunk : Callee → Clobber := fun _ => ⟨0, 0, 0, fun _ => 0⟩

/-- The kernel after `proc_init`, with its stack pointer at `esp`. -/
def bootMachine (esp : ℕ) (s : Sched) : Machine where
  cpu :=
    { reg := fun r => if r = .esp then esp else 0
      seg := fun _ => gdtSelDataPl0
      eip := 0xE0001000
      cs := gdtSelCodePl0
      eflags := 0x202
      ss := gdtSelDataPl0 }
  stack _ := 0
  sched := s

/-- The timer interrupts `n` times, with nothing in between. -/
def ticks : ℕ → World → Option World
  | 0, w => some w
  | n + 1, w =>
      match tick zeroJunk w.machine with
      | .ok ((), m) => ticks n ⟨m, Function.update w.latest w.machine.sched.pid w.machine.cpu⟩
      | .error _ => none

theorem ticks_run {n : ℕ} {w w' : World} (found : ticks n w = some w') :
    Relation.ReflTransGen SwitchStep w w' := by
  induction n generalizing w with
  | zero =>
      cases found
      exact .refl
  | succ n ih =>
      unfold ticks at found
      cases returned : tick zeroJunk w.machine with
      | error e =>
          rw [returned] at found
          cases found
      | ok result =>
          obtain ⟨_, m⟩ := result
          rw [returned] at found
          exact .head (.tick returned) (ih found)

/-- The first test process sets `eax`, and the time slices of all of them pass. -/
def slicesPass (s : Sched) : Option World :=
  (ticks 1 (World.start (bootMachine 0xFFFFFF00 s))).bind fun w =>
    ticks 59 ⟨⟨w.machine.cpu.setReg .eax 0x2a, w.machine.stack, w.machine.sched⟩, w.latest⟩

theorem slicesPass_run {s : Sched} {w : World} (found : slicesPass s = some w) :
    Relation.ReflTransGen SwitchStep (World.start (bootMachine 0xFFFFFF00 s)) w := by
  obtain ⟨w₁, first, rest⟩ := Option.bind_eq_some_iff.mp found
  have level : ring (w₁.machine.cpu.setReg .eax 0x2a).cs = ring w₁.machine.cpu.cs := rfl
  exact ((ticks_run first).tail (.execute level fun _ => rfl)).trans (ticks_run rest)

/-- The first test process is interrupted with a number in `eax`, two others and the kernel
run, and then it is resumed with that number. -/
theorem registers_preserved_of_sample :
    ∃ s w m', procInit sampleInitMemory zeroSched = .ok ((), s) ∧
      Relation.ReflTransGen SwitchStep (World.start (bootMachine 0xFFFFFF00 s)) w ∧
      w.machine.sched.pid = 0 ∧ tick zeroJunk w.machine = .ok ((), m') ∧ m'.sched.pid = 1 ∧
      m'.cpu = w.latest 1 ∧ m'.cpu.reg .eax = 0x2a ∧
      ∀ p, (m'.sched.procTable p).state ≠ .dead → p ≠ 1 → p ≠ 0 →
        (m'.sched.procTable p).ctxt = (w.latest p).ctxt := by
  have zeroed : Zeroed zeroSched := ⟨rfl, rfl, rfl, rfl⟩
  have fresh : InitFresh sampleInitMemory := ⟨by decide, by decide⟩
  obtain ⟨s, nodes, init, -, -⟩ := procInit_booted zeroed fresh
  have check : (match procInit sampleInitMemory zeroSched with
      | .ok (_, s) => (slicesPass s).map fun w => (w.machine.sched.pid,
          match tick zeroJunk w.machine with
          | .ok (_, m) => (m.sched.pid, m.cpu.reg .eax)
          | .error _ => (0, 0))
      | .error _ => none) = some (0, 1, 0x2a) := by decide +kernel
  rw [init] at check
  obtain ⟨w, found, values⟩ := Option.map_eq_some_iff.mp check
  have run := slicesPass_run found
  obtain ⟨m', latest, returned, recorded, resumed, others⟩ := registers_preserved
    (m := bootMachine 0xFFFFFF00 s) zeroed fresh init ring_gdtSelCodePl0 run zeroJunk
  rw [returned, Prod.mk.injEq, Prod.mk.injEq] at values
  obtain ⟨kernel, first, eax⟩ := values
  have same : ∀ p, p ≠ 0 → latest p = w.latest p := fun p user => by
    rw [recorded, kernel]
    exact Function.update_of_ne user _ _
  have cpu := resumed (first ▸ Nat.one_ne_zero)
  rw [first, same 1 Nat.one_ne_zero] at cpu
  refine ⟨s, w, m', init, run, kernel, returned, first, cpu, eax, fun p alive other user => ?_⟩
  rw [others p alive (first ▸ other) user, same p user]

/-! ## The kernel in ring 0 -/

/-- Timer interrupts of processes in ring 3, with any execution in between, until
the kernel is current again. -/
inductive UserRun (m : Machine) : Machine → Prop
  | refl : UserRun m m
  | step {m₁ m₂ : Machine} {cpu : Cpu} {junk : Callee → Clobber} (before : UserRun m m₁)
      (user : m₁.sched.pid ≠ 0) (level : ring cpu.cs = ring m₁.cpu.cs)
      (returned : tick junk { m₁ with cpu := cpu } = .ok ((), m₂)) : UserRun m m₂

/-- The kernel is interrupted in `m` and resumed in `m'`. -/
def Preempted (m m' : Machine) : Prop :=
  ∃ junk m₁, tick junk m = .ok ((), m₁) ∧ UserRun m₁ m' ∧ m'.sched.pid = 0

/-- The stack pointer is back, and so is every word of the stack from there on. -/
def Transparent (m m' : Machine) : Prop :=
  m'.esp = m.esp ∧
    ∀ i, m.esp + 4 * i < 2 ^ 32 → m'.stack (m.esp + 4 * i) = m.stack (m.esp + 4 * i)

theorem UserRun.eq_of_kernel (run : UserRun m m') (kernel : m.sched.pid = 0) : m' = m := by
  induction run with
  | refl => rfl
  | step _ user _ _ ih =>
      rw [ih] at user
      exact absurd kernel user

/-- The words of a kernel stack from the interrupted stack pointer on, two of them
excepted, are neither in the frame of an interrupt eight bytes above nor below
it. -/
theorem stack_above {top esp i : ℕ} (frame : esp = Word32.sub top 8)
    (low : kernelStartVma ≤ esp) (fits : esp + 4 * i < 2 ^ 32) :
    (∀ k, 0 < k → k ≤ 68 → k ≠ 4 → k ≠ 8 → esp + 4 * i ≠ Word32.sub top k) ∧
      ¬ Below (Word32.sub top 68) (esp + 4 * i) := by
  unfold kernelStartVma at low
  constructor
  · intro k pos bound
    unfold Word32.sub at frame ⊢
    omega
  · rintro ⟨-, depth⟩
    unfold calleeDepth Word32.sub at depth
    unfold Word32.sub at frame
    omega

/-- Whatever is interrupted eight bytes below the end of the frame, the words of
the stack are those of before, but for the first two, which are the last fields
of the context that was loaded. -/
theorem Switched.stack_words (switched : Switched m m' nodes nodes') {esp i : ℕ}
    (frame : esp = Word32.sub m.frameEnd 8) (low : kernelStartVma ≤ esp)
    (fits : esp + 4 * i < 2 ^ 32) :
    m'.stack (esp + 4 * i) = if i = 0 then (m'.sched.procTable m'.sched.pid).ctxt.esp
      else if i = 1 then (m'.sched.procTable m'.sched.pid).ctxt.ss
      else m.stack (esp + 4 * i) := by
  have first : (m'.sched.procTable m'.sched.pid).ctxt.esp = m'.stack (Word32.sub m.frameEnd 8) := by
    rw [← switched.frame]
    simp only [readCtxt]
    rw [Word32.add_sub (by omega)]
  have second : (m'.sched.procTable m'.sched.pid).ctxt.ss = m'.stack (Word32.sub m.frameEnd 4) := by
    rw [← switched.frame]
    simp only [readCtxt]
    rw [Word32.add_sub (by omega)]
  have upper : i = 1 → esp + 4 * i = Word32.sub m.frameEnd 4 := by
    unfold Word32.sub at frame ⊢
    omega
  obtain ⟨notFrame, notBelow⟩ := stack_above frame low fits
  split_ifs with zero one
  · rw [first, zero, ← frame]
    rfl
  · rw [second, upper one]
  · refine switched.outside _ (fun k pos bound => ?_) notBelow
    by_cases is4 : k = 4
    · subst is4
      unfold Word32.sub at frame ⊢
      omega
    · by_cases is8 : k = 8
      · subst is8
        rw [← frame]
        omega
      · exact notFrame k pos bound is4 is8

theorem resumed_kernel_esp {c : ProcCtxt} (kernel : ring c.cs = 0) (top : ℕ) (ss : Selector) :
    (resumed c top ss).reg .esp = Word32.sub top 8 := by
  unfold resumed
  rw [if_pos kernel, setReg_reg, if_pos rfl]

/-- What holds while the kernel, interrupted in `m`, waits: its context is in the
process table, and its stack is untouched unless it is the stack of the TSS. -/
structure Waiting (m m₁ : Machine) (nodes : List ℕ) : Prop where
  inv : SwitchInv m₁ nodes
  ctxt : (m₁.sched.procTable 0).ctxt = m.frame
  stack : m₁.sched.esp0 = m.sched.esp0
  words : m.esp = Word32.sub m.sched.esp0 8 → ∀ i, 2 ≤ i → m.esp + 4 * i < 2 ^ 32 →
    m₁.stack (m.esp + 4 * i) = m.stack (m.esp + 4 * i)

theorem frameEnd_kernel (kernel : ring m.cpu.cs = 0) (word : m.esp < 2 ^ 32) :
    m.esp = Word32.sub m.frameEnd 8 := by
  rw [Machine.frameEnd, if_pos kernel, Word32.sub_add_self word]

/-- The interrupt that switches away from the kernel. -/
theorem Switched.waiting (switched : Switched m m' nodes nodes') (inv' : SwitchInv m' nodes')
    (kernel : ring m.cpu.cs = 0) (current : m.sched.pid = 0) (word : m.esp < 2 ^ 32)
    (low : kernelStartVma ≤ m.esp) : Waiting m m' nodes' := by
  refine ⟨inv', ?_, switched.stack, fun _ i two fits => ?_⟩
  · rw [switched.ctxts, if_pos current.symm]
  · rw [switched.stack_words (frameEnd_kernel kernel word) low fits, if_neg (by omega),
      if_neg (by omega)]

/-- A timer interrupt in ring 3 while the kernel waits. -/
theorem Waiting.tick {m₁ m₂ : Machine} {cpu : Cpu} (waiting : Waiting m m₁ nodes)
    (user : m₁.sched.pid ≠ 0) (level : ring cpu.cs = ring m₁.cpu.cs)
    (low : kernelStartVma ≤ m.esp) (returned : tick junk { m₁ with cpu := cpu } = .ok ((), m₂)) :
    ∃ nodes', Waiting m m₂ nodes' ∧ Switched { m₁ with cpu := cpu } m₂ nodes nodes' := by
  have inv : SwitchInv { m₁ with cpu := cpu } nodes :=
    ⟨waiting.inv.sched, waiting.inv.base, level.trans waiting.inv.level, waiting.inv.levels⟩
  obtain ⟨m', nodes', run, inv', switched⟩ := tick_keeps inv junk
  obtain rfl : m' = m₂ := by
    rw [run] at returned
    simpa using returned
  have outer : ring cpu.cs ≠ 0 := by
    rw [level, waiting.inv.level, ringOf, if_neg user]
    decide
  have frameEnd : Machine.frameEnd { m₁ with cpu := cpu } = m.sched.esp0 :=
    (if_neg outer).trans waiting.stack
  refine ⟨nodes', ⟨inv', ?_, switched.stack.trans waiting.stack, fun same i two fits => ?_⟩,
    switched⟩
  · rw [switched.ctxts, if_neg fun kernel => user kernel.symm]
    exact waiting.ctxt
  · rw [switched.stack_words (by rw [frameEnd]; exact same) low fits, if_neg (by omega),
      if_neg (by omega)]
    exact waiting.words same i two fits

theorem UserRun.waiting (run : UserRun m m') {m₀ : Machine} (waiting : Waiting m₀ m nodes)
    (low : kernelStartVma ≤ m₀.esp) : ∃ nodes', Waiting m₀ m' nodes' := by
  induction run with
  | refl => exact ⟨nodes, waiting⟩
  | step _ user level returned ih =>
      obtain ⟨nodes₁, waiting₁⟩ := ih
      obtain ⟨nodes₂, waiting₂, -⟩ := waiting₁.tick user level low returned
      exact ⟨nodes₂, waiting₂⟩

/-- The last two fields of the context the kernel is interrupted with are the first
two words of its stack. -/
theorem kernel_frame (kernel : ring m.cpu.cs = 0) (word : m.esp < 2 ^ 32) :
    m.frame.cs = m.cpu.cs ∧ m.frame.esp = m.stack m.esp ∧
      (m.esp + 4 < 2 ^ 32 → m.frame.ss = m.stack (m.esp + 4)) := by
  have frameEnd := frameEnd_kernel kernel word
  refine ⟨frame_cs m, ?_, fun fits => ?_⟩
  · rw [Machine.frame, if_pos kernel]
    simp only
    rw [← frameEnd]
  · have second : m.esp + 4 = Word32.sub m.frameEnd 4 := by
      unfold Word32.sub at frameEnd ⊢
      omega
    rw [Machine.frame, if_pos kernel, second]

/-- The interrupt that loads the context of the kernel, which was interrupted in
`m`, from a frame that ends at `top`. -/
theorem Switched.resumes {m₁ : Machine} (switched : Switched m₁ m' nodes nodes')
    (kernel : ring m.cpu.cs = 0) (word : m.esp < 2 ^ 32) (low : kernelStartVma ≤ m.esp)
    (ctxt : (m'.sched.procTable m'.sched.pid).ctxt = m.frame) :
    m'.esp = Word32.sub m₁.frameEnd 8 ∧
      (m.esp = Word32.sub m₁.frameEnd 8 →
        (∀ i, 2 ≤ i → m.esp + 4 * i < 2 ^ 32 →
          m₁.stack (m.esp + 4 * i) = m.stack (m.esp + 4 * i)) →
        Transparent m m') := by
  obtain ⟨cs, first, second⟩ := kernel_frame kernel word
  have esp : m'.esp = Word32.sub m₁.frameEnd 8 := by
    rw [Machine.esp, switched.cpu, ctxt]
    exact resumed_kernel_esp (cs ▸ kernel) _ _
  refine ⟨esp, fun same words => ⟨esp.trans same.symm, fun i fits => ?_⟩⟩
  rw [switched.stack_words same low fits, ctxt]
  split_ifs with zero one
  · rw [first, zero, Nat.mul_zero, Nat.add_zero]
  · rw [one] at fits ⊢
    exact second fits
  · exact words i (by omega) fits

/-- After an interrupt that switched away, the kernel comes back eight bytes below
the end of the stack of the TSS. -/
theorem UserRun.resumes {m₁ : Machine} (run : UserRun m₁ m') (waiting : Waiting m m₁ nodes)
    (away : m₁.sched.pid ≠ 0) (back : m'.sched.pid = 0) (kernel : ring m.cpu.cs = 0)
    (word : m.esp < 2 ^ 32) (low : kernelStartVma ≤ m.esp) :
    m'.esp = Word32.sub m.sched.esp0 8 ∧
      (m.esp = Word32.sub m.sched.esp0 8 → Transparent m m') := by
  cases run with
  | refl => exact absurd back away
  | step before user level returned =>
      rename_i m₂ cpu junk
      obtain ⟨nodes₂, waiting₂⟩ := before.waiting waiting low
      obtain ⟨nodes', waiting', switched⟩ := waiting₂.tick user level low returned
      have outer : ring cpu.cs ≠ 0 := by
        rw [level, waiting₂.inv.level, ringOf, if_neg user]
        decide
      have frameEnd : Machine.frameEnd { m₂ with cpu := cpu } = m.sched.esp0 :=
        (if_neg outer).trans waiting₂.stack
      obtain ⟨esp, transparent⟩ := switched.resumes kernel word low (back ▸ waiting'.ctxt)
      rw [frameEnd] at esp transparent
      exact ⟨esp, fun same => transparent same (waiting₂.words same)⟩

/-- **Preemption of the kernel.** In every run of timer interrupts after `proc_init`, with any
execution in between: when the kernel, interrupted in ring 0 on a stack in kernel memory, is
resumed, it finds its stack pointer and its stack as they were if and only if its time slice was
not over, or no other process is registered, or its stack pointer was exactly eight bytes below
the end of the stack of the TSS.  The handler saves `esp` and `ss` from the frame of every
interrupt, but the processor pushes them for a change of ring only.  In ring 0 the two words above
the frame belong to the kernel's own stack, and the kernel is resumed on the stack that the frame
of another process was on. -/
theorem kernel_transparent_iff {s₀ : Sched} {memory : InitMemory} {w : World}
    (zeroed : Zeroed s₀) (fresh : InitFresh memory)
    (init : procInit memory s₀ = .ok ((), m.sched)) (start : ring m.cpu.cs = 0)
    (run : Relation.ReflTransGen SwitchStep (World.start m) w)
    (current : w.machine.sched.pid = 0) (low : kernelStartVma ≤ w.machine.esp)
    (word : w.machine.esp < 2 ^ 32) (preempted : Preempted w.machine m') :
    Transparent w.machine m' ↔
      decrement (w.machine.sched.procTable 0).execCount ≠ 0 ∨ w.machine.sched.procNum = 0 ∨
        w.machine.esp = Word32.sub w.machine.sched.esp0 8 := by
  obtain ⟨nodes, inv, saved⟩ := switchInv_of_init zeroed fresh init start
  obtain ⟨nodes₁, inv₁, -⟩ := switch_run run inv saved
  have kernel : ring w.machine.cpu.cs = 0 := by
    rw [inv₁.level, current]
    rfl
  obtain ⟨junk, m₁, first, users, back⟩ := preempted
  obtain ⟨m₁', nodes₂, returned, inv₂, switched⟩ := tick_keeps inv₁ junk
  obtain rfl : m₁' = m₁ := by
    rw [returned] at first
    simpa using first
  have waiting := switched.waiting inv₂ kernel current word low
  have stays := switched.stays
  rw [current] at stays
  by_cases away : m₁'.sched.pid = 0
  · obtain rfl := users.eq_of_kernel away
    obtain ⟨-, transparent⟩ := switched.resumes kernel word low (away ▸ waiting.ctxt)
    have same : Transparent w.machine m' :=
      transparent (frameEnd_kernel kernel word) fun _ _ _ => rfl
    have cond := stays.mp away
    exact ⟨fun _ => cond.elim Or.inl fun alone => Or.inr (Or.inl alone), fun _ => same⟩
  · obtain ⟨esp, transparent⟩ := users.resumes waiting away back kernel word low
    constructor
    · intro same
      exact Or.inr (Or.inr (same.1.symm.trans esp))
    · rintro (more | alone | same)
      · exact absurd (stays.mpr (Or.inl more)) away
      · exact absurd (stays.mpr (Or.inr alone)) away
      · exact transparent same

/-- The timer interrupts one process in ring 3 after the other, until the kernel is
current. -/
def untilKernel : ℕ → Machine → Option Machine
  | 0, _ => none
  | fuel + 1, m =>
      if m.sched.pid = 0 then some m
      else
        match tick zeroJunk m with
        | .ok ((), m') => untilKernel fuel m'
        | .error _ => none

theorem untilKernel_run {m₀ : Machine} {fuel : ℕ} (before : UserRun m₀ m)
    (found : untilKernel fuel m = some m') : UserRun m₀ m' ∧ m'.sched.pid = 0 := by
  induction fuel generalizing m with
  | zero => cases found
  | succ fuel ih =>
      unfold untilKernel at found
      split_ifs at found with kernel
      · cases found
        exact ⟨before, kernel⟩
      · cases returned : tick zeroJunk m with
        | error e =>
            rw [returned] at found
            cases found
        | ok result =>
            obtain ⟨_, m₁⟩ := result
            rw [returned] at found
            exact ih (before.step kernel rfl returned) found

/-- The kernel is interrupted after `proc_init` and resumed after all time slices of
the three test processes. -/
def bootPreemption (esp : ℕ) : Option Machine :=
  match procInit sampleInitMemory zeroSched with
  | .ok ((), s) =>
      match tick zeroJunk (bootMachine esp s) with
      | .ok ((), m) => untilKernel 52 m
      | .error _ => none
  | .error _ => none

theorem bootPreemption_run {esp : ℕ} (found : bootPreemption esp = some m') :
    ∃ s, procInit sampleInitMemory zeroSched = .ok ((), s) ∧ Preempted (bootMachine esp s) m' := by
  unfold bootPreemption at found
  cases init : procInit sampleInitMemory zeroSched with
  | error e =>
      rw [init] at found
      cases found
  | ok result =>
      obtain ⟨_, s⟩ := result
      rw [init] at found
      change (match tick zeroJunk (bootMachine esp s) with
        | .ok ((), m) => untilKernel 52 m
        | .error _ => none) = some m' at found
      cases first : tick zeroJunk (bootMachine esp s) with
      | error e =>
          rw [first] at found
          cases found
      | ok result =>
          obtain ⟨_, m₁⟩ := result
          rw [first] at found
          obtain ⟨users, back⟩ := untilKernel_run UserRun.refl found
          exact ⟨s, rfl, zeroJunk, m₁, first, users, back⟩

/-- On the top of the stack of the TSS the kernel is preempted transparently. -/
theorem kernel_transparent_of_sample :
    ∃ s m', procInit sampleInitMemory zeroSched = .ok ((), s) ∧
      Preempted (bootMachine 0xE0200FF8 s) m' ∧ Transparent (bootMachine 0xE0200FF8 s) m' := by
  obtain ⟨m', found⟩ : ∃ m', bootPreemption 0xE0200FF8 = some m' :=
    Option.isSome_iff_exists.mp (by decide +kernel)
  obtain ⟨s, init, preempted⟩ := bootPreemption_run found
  have zeroed : Zeroed zeroSched := ⟨rfl, rfl, rfl, rfl⟩
  have fresh : InitFresh sampleInitMemory := ⟨by decide, by decide⟩
  obtain ⟨s', nodes, init', booted, -⟩ := procInit_booted zeroed fresh
  obtain rfl : s' = s := by
    rw [init'] at init
    simpa using init
  have stack : s'.esp0 = 0xE0201000 := by
    have check : (match procInit sampleInitMemory zeroSched with
        | .ok (_, s) => s.esp0
        | .error _ => 0) = 0xE0201000 := by decide +kernel
    rw [init'] at check
    exact check
  refine ⟨s', m', init', preempted, (kernel_transparent_iff (m := bootMachine 0xE0200FF8 s') zeroed
    fresh init' ring_gdtSelCodePl0 Relation.ReflTransGen.refl booted.kernel
    (show 0xE0000000 ≤ 0xE0200FF8 by decide) (show 0xE0200FF8 < 2 ^ 32 by decide)
    preempted).mpr (Or.inr (Or.inr ?_))⟩
  change 0xE0200FF8 = Word32.sub s'.esp0 8
  rw [stack]
  decide +kernel

/-- Anywhere else the kernel comes back on another stack. -/
theorem kernel_displaced :
    ∃ s m', procInit sampleInitMemory zeroSched = .ok ((), s) ∧
      Preempted (bootMachine 0xFFFFFF00 s) m' ∧ ¬ Transparent (bootMachine 0xFFFFFF00 s) m' := by
  obtain ⟨m', found, esp⟩ : ∃ m', bootPreemption 0xFFFFFF00 = some m' ∧ m'.esp = 0xE0200FF8 := by
    have check : (bootPreemption 0xFFFFFF00).map Machine.esp = some 0xE0200FF8 := by decide +kernel
    exact Option.map_eq_some_iff.mp check
  obtain ⟨s, init, preempted⟩ := bootPreemption_run found
  refine ⟨s, m', init, preempted, fun same => ?_⟩
  have displaced : (0xE0200FF8 : ℕ) = 0xFFFFFF00 := esp.symm.trans same.1
  omega

end TrashOS
