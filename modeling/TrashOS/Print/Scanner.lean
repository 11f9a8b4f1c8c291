import TrashOS.Print.Items
import Mathlib.Logic.Relation

/-!
# The format scanner over memory

`_parse_format` and `_print` read a string of which they know only that it ends in a
NUL byte.  Here the format is the memory it stands in, `text i` being the byte at
`format[i]`, and every index that is read is recorded.

* `Spells` is the grammar of a conversion, and `parseAt_spec` says that the five-state
  automaton accepts exactly it.  The invariant of the scan is that the modifiers read
  so far stand before the cursor; each turn either ends the scan or reads one more.
* `PrintStep` is `_print` turn by turn.  Every byte of an accepted conversion is
  different from NUL, so however far the executor moves the cursor, the next turn
  starts at the NUL at the latest (`Scan.Within`).
* `print_run` says that the steps are those of `print`.
-/

namespace TrashOS

/-! ## The grammar -/

/-- The length modifiers. -/
inductive Modifier where
  | none | h | hh | l | ll
  deriving DecidableEq, Repr

/-- The conversion letters of numbers. -/
inductive Letter where
  | d | i | u | p | o | x | X
  deriving DecidableEq, Repr

namespace Modifier

def bytes : Modifier → List UInt8
  | .none => []
  | .h => [Chr.h]
  | .hh => [Chr.h, Chr.h]
  | .l => [Chr.l]
  | .ll => [Chr.l, Chr.l]

/-- The state of the parser after the modifier. -/
def state : Modifier → Format
  | .none => Format.none
  | .h => .short
  | .hh => .shortShort
  | .l => .long
  | .ll => .longLong

/-- One of five codes. -/
def pick (m : Modifier) (plain h hh l ll : Format) : Format :=
  match m with
  | .none => plain
  | .h => h
  | .hh => hh
  | .l => l
  | .ll => ll

end Modifier

namespace Letter

def byte : Letter → UInt8
  | .d => Chr.d
  | .i => Chr.i
  | .u => Chr.u
  | .p => Chr.p
  | .o => Chr.o
  | .x => Chr.x
  | .X => Chr.X

/-- `d` and `i` are one conversion. -/
def kind : Letter → Letter
  | .i => .d
  | letter => letter

/-- The code of a conversion. -/
def format (m : Modifier) : Letter → Format
  | .d | .i => m.pick .int .shortInt .shortShortInt .longInt .longLongInt
  | .u => m.pick .uint .shortUint .shortShortUint .longUint .longLongUint
  | .p => m.pick .ptr .shortPtr .shortShortPtr .longPtr .longLongPtr
  | .o => m.pick .oct .shortOct .shortShortOct .longOct .longLongOct
  | .x => m.pick .hex .shortHex .shortShortHex .longHex .longLongHex
  | .X => m.pick .bigHex .shortBigHex .shortShortBigHex .longBigHex .longLongBigHex

/-- The code names the modifier and the kind of the letter. -/
theorem format_eq_iff (m m' : Modifier) (l l' : Letter) :
    l.format m = l'.format m' ↔ m = m' ∧ l.kind = l'.kind := by
  cases m <;> cases m' <;> cases l <;> cases l' <;> decide

/-- It is that of a number. -/
theorem format_conversion (m : Modifier) (l : Letter) : (l.format m).conversion.isSome := by
  cases m <;> cases l <;> rfl

theorem byte_ne_zero (l : Letter) : l.byte ≠ 0 := by
  cases l <;> decide

end Letter

/-- The bytes of a list stand in memory from `i` on. -/
def BeginsAt (text : ℕ → UInt8) : ℕ → List UInt8 → Prop
  | _, [] => True
  | i, c :: rest => text i = c ∧ BeginsAt text (i + 1) rest

/-- The conversion that stands at `i`, after the `%`. -/
inductive Spells (text : ℕ → UInt8) (i : ℕ) : Format → Prop
  | number (m : Modifier) (l : Letter) (there : BeginsAt text i (m.bytes ++ [l.byte])) :
      Spells text i (l.format m)
  | str (there : text i = Chr.s) : Spells text i .str
  | escapedPercent (there : text i = Chr.percent) : Spells text i .escapedPercent

theorem beginsAt_append {text : ℕ → UInt8} {i : ℕ} {front back : List UInt8} :
    BeginsAt text i (front ++ back) ↔
      BeginsAt text i front ∧ BeginsAt text (i + front.length) back := by
  induction front generalizing i with
  | nil => simp [BeginsAt]
  | cons c front ih =>
      rw [List.cons_append, BeginsAt, BeginsAt, ih, List.length_cons, and_assoc,
        show i + 1 + front.length = i + (front.length + 1) by omega]

/-! ## The parser -/

/-- `_parse_format` on a format in memory: the code, and the indices it reads. -/
def parseAt (text : ℕ → UInt8) : ℕ → Format → ℕ → Option (Format × List ℕ)
  | 0, _, _ => Option.none
  | fuel + 1, state, i =>
    match parseStep state (text i) with
    | (state', true) => (parseAt text fuel state' (i + 1)).map fun r => (r.1, i :: r.2)
    | (state', false) => some (state', [i])

/-- **One turn of the parser** in one of its five states. -/
theorem parseStep_cases (m : Modifier) (c : UInt8) :
    (∃ l : Letter, c = l.byte ∧ parseStep m.state c = (l.format m, false)) ∨
    (∃ m' : Modifier, m'.bytes = m.bytes ++ [c] ∧ parseStep m.state c = (m'.state, true)) ∨
    (m = .none ∧ c = Chr.s ∧ parseStep m.state c = (.str, false)) ∨
    (m = .none ∧ c = Chr.percent ∧ parseStep m.state c = (.escapedPercent, false)) ∨
    parseStep m.state c = (.invalid, false) := by
  cases m <;> simp only [Modifier.state, parseStep] <;> split <;> first
    | exact Or.inr (Or.inr (Or.inr (Or.inr rfl)))
    | exact Or.inl ⟨.d, rfl, rfl⟩
    | exact Or.inl ⟨.i, rfl, rfl⟩
    | exact Or.inl ⟨.u, rfl, rfl⟩
    | exact Or.inl ⟨.p, rfl, rfl⟩
    | exact Or.inl ⟨.o, rfl, rfl⟩
    | exact Or.inl ⟨.x, rfl, rfl⟩
    | exact Or.inl ⟨.X, rfl, rfl⟩
    | exact Or.inr (Or.inl ⟨.h, rfl, rfl⟩)
    | exact Or.inr (Or.inl ⟨.hh, rfl, rfl⟩)
    | exact Or.inr (Or.inl ⟨.l, rfl, rfl⟩)
    | exact Or.inr (Or.inl ⟨.ll, rfl, rfl⟩)
    | exact Or.inr (Or.inr (Or.inl ⟨trivial, rfl, rfl⟩))
    | exact Or.inr (Or.inr (Or.inr (Or.inl ⟨trivial, rfl, rfl⟩)))

/-- A letter ends the scan. -/
theorem parseStep_letter (m : Modifier) (l : Letter) :
    parseStep m.state l.byte = (l.format m, false) := by
  cases m <;> cases l <;> rfl

theorem Modifier.bytes_ne_zero (m : Modifier) : ∀ c ∈ m.bytes, c ≠ 0 := by
  have h : Chr.h ≠ 0 := by decide
  have l : Chr.l ≠ 0 := by decide
  cases m with
  | none => exact List.forall_mem_nil _
  | h => exact List.forall_mem_singleton.mpr h
  | hh => exact List.forall_mem_cons.mpr ⟨h, List.forall_mem_singleton.mpr h⟩
  | l => exact List.forall_mem_singleton.mpr l
  | ll => exact List.forall_mem_cons.mpr ⟨l, List.forall_mem_singleton.mpr l⟩

theorem Modifier.length_le (m : Modifier) : m.bytes.length ≤ 2 := by
  cases m <;> decide

/-- A NUL-terminated format of `n` bytes. -/
structure Terminated (text : ℕ → UInt8) (n : ℕ) : Prop where
  nul : text n = 0
  before : ∀ k < n, text k ≠ 0

section Parser

variable {text : ℕ → UInt8} {n i start fuel : ℕ} {f : Format}

/-- The parser stops. -/
theorem parseAt_stop {state : Format} (step : parseStep state (text i) = (f, false)) :
    parseAt text (fuel + 1) state i = some (f, [i]) := by
  unfold parseAt
  rw [step]

/-- The parser goes on. -/
theorem parseAt_go {state next : Format} (step : parseStep state (text i) = (next, true)) :
    parseAt text (fuel + 1) state i
      = (parseAt text fuel next (i + 1)).map fun r => (r.1, i :: r.2) := by
  conv_lhs => unfold parseAt
  rw [step]

/-- **The scan.**  With the modifier `m` before the cursor, the parser ends within the
format, and a code it returns is spelled by what it has read. -/
theorem parseAt_run {m : Modifier} (nul : text n = 0) (read : BeginsAt text start m.bytes)
    (cursor : i = start + m.bytes.length) (inside : i ≤ n) (enough : 3 ≤ fuel + m.bytes.length) :
    ∃ f reads, parseAt text fuel m.state i = some (f, reads) ∧ (∀ j ∈ reads, j ≤ n) ∧
      (f = .invalid ∨ Spells text start f) := by
  have short := m.length_le
  obtain ⟨fuel, rfl⟩ : ∃ k, fuel = k + 1 := ⟨fuel - 1, by omega⟩
  induction fuel generalizing m i with
  | zero =>
      -- two modifier letters are read, and there is no third
      have last : ∀ m' : Modifier, m'.bytes ≠ m.bytes ++ [text i] := fun m' longer => by
        have bound := m'.length_le
        rw [longer, List.length_append, List.length_singleton] at bound
        omega
      rcases parseStep_cases m (text i) with ⟨l, letter, step⟩ | ⟨m', longer, -⟩ |
        ⟨rfl, -, -⟩ | ⟨rfl, -, -⟩ | step
      · refine ⟨_, _, parseAt_stop step, by simpa using inside, Or.inr (.number m l ?_)⟩
        exact beginsAt_append.mpr ⟨read, cursor ▸ letter, trivial⟩
      · exact absurd longer (last m')
      · simp [Modifier.bytes] at enough
      · simp [Modifier.bytes] at enough
      · exact ⟨_, _, parseAt_stop step, by simpa using inside, Or.inl rfl⟩
  | succ fuel ih =>
      rcases parseStep_cases m (text i) with ⟨l, letter, step⟩ | ⟨m', longer, step⟩ |
        ⟨rfl, there, step⟩ | ⟨rfl, there, step⟩ | step
      · refine ⟨_, _, parseAt_stop step, by simpa using inside, Or.inr (.number m l ?_)⟩
        exact beginsAt_append.mpr ⟨read, cursor ▸ letter, trivial⟩
      · -- a NUL ends the scan, so the cursor is still before it
        have before : i ≠ n := fun same => by
          have depth : ∃ d, m.state.depth = some d := by cases m <;> exact ⟨_, rfl⟩
          obtain ⟨d, reading⟩ := depth
          rw [same, nul, parseStep_nul reading] at step
          exact Bool.false_ne_true (congrArg Prod.snd step)
        have length : m'.bytes.length = m.bytes.length + 1 := by
          rw [longer, List.length_append, List.length_singleton]
        obtain ⟨f, reads, run, within, spelled⟩ := ih (m := m') (i := i + 1)
          (longer ▸ beginsAt_append.mpr ⟨read, cursor ▸ rfl, trivial⟩) (by omega) (by omega)
          m'.length_le (by omega)
        refine ⟨f, i :: reads, ?_, List.forall_mem_cons.mpr ⟨inside, within⟩, spelled⟩
        rw [parseAt_go step, run]
        rfl
      · rw [show i = start by simpa [Modifier.bytes] using cursor] at there step inside ⊢
        exact ⟨_, _, parseAt_stop step, by simpa using inside, Or.inr (.str there)⟩
      · rw [show i = start by simpa [Modifier.bytes] using cursor] at there step inside ⊢
        exact ⟨_, _, parseAt_stop step, by simpa using inside, Or.inr (.escapedPercent there)⟩
      · exact ⟨_, _, parseAt_stop step, by simpa using inside, Or.inl rfl⟩

/-- More fuel changes nothing. -/
theorem parseAt_mono {state : Format} {r : Format × List ℕ} (more : ℕ)
    (run : parseAt text fuel state i = some r) : parseAt text (fuel + more) state i = some r := by
  induction fuel generalizing state i r with
  | zero => cases run
  | succ fuel ih =>
      rw [Nat.succ_add]
      unfold parseAt at run ⊢
      split at run
      · obtain ⟨r', rest, rfl⟩ := Option.map_eq_some_iff.mp run
        rw [ih rest]
        rfl
      · exact run

/-- What is spelled is found. -/
theorem parseAt_of_spells (spelled : Spells text i f) :
    ∃ reads, parseAt text 3 .none i = some (f, reads) := by
  have letter : ∀ (m : Modifier) (l : Letter) {j : ℕ}, text j = l.byte → ∀ fuel,
      parseAt text (fuel + 1) m.state j = some (l.format m, [j]) := fun m l j there fuel =>
    parseAt_stop (by rw [there]; exact parseStep_letter m l)
  have modifier : ∀ {c : UInt8} {state next : Format} {j fuel : ℕ} {r : Format × List ℕ},
      text j = c → parseStep state c = (next, true) → parseAt text fuel next (j + 1) = some r →
        parseAt text (fuel + 1) state j = some (r.1, j :: r.2) := by
    intro c state next j fuel r there step rest
    rw [parseAt_go (by rw [there]; exact step), rest]
    rfl
  cases spelled with
  | number m l there =>
      cases m with
      | none => exact ⟨_, letter .none l there.1 2⟩
      | h =>
          obtain ⟨first, last, -⟩ := there
          exact ⟨_, modifier first rfl (letter .h l last 1)⟩
      | hh =>
          obtain ⟨first, second, last, -⟩ := there
          exact ⟨_, modifier first rfl (modifier second rfl (letter .hh l last 0))⟩
      | l =>
          obtain ⟨first, last, -⟩ := there
          exact ⟨_, modifier first rfl (letter .l l last 1)⟩
      | ll =>
          obtain ⟨first, second, last, -⟩ := there
          exact ⟨_, modifier first rfl (modifier second rfl (letter .ll l last 0))⟩
  | str there => exact ⟨_, parseAt_stop (by rw [there]; rfl)⟩
  | escapedPercent there => exact ⟨_, parseAt_stop (by rw [there]; rfl)⟩

theorem Spells.valid (spelled : Spells text i f) : f ≠ .invalid := by
  cases spelled with
  | number m l _ => cases m <;> cases l <;> decide
  | str _ => decide
  | escapedPercent _ => decide

/-- **The parser accepts its grammar**: it ends within the format, and returns a
conversion if and only if it is spelled there. -/
theorem parseAt_spec (nul : text n = 0) (inside : i ≤ n) :
    ∃ f reads, (∀ fuel, 3 ≤ fuel → parseAt text fuel .none i = some (f, reads)) ∧
      (∀ j ∈ reads, j ≤ n) ∧ (∀ g, g ≠ .invalid → (f = g ↔ Spells text i g)) ∧
      (f = .invalid ↔ ∀ g, ¬ Spells text i g) := by
  obtain ⟨f, reads, run, within, spelled⟩ :=
    parseAt_run nul (show BeginsAt text i Modifier.none.bytes from trivial) rfl inside
      (show 3 ≤ 3 + Modifier.none.bytes.length by decide)
  have found : ∀ g, Spells text i g → f = g := fun g there => by
    obtain ⟨reads', run'⟩ := parseAt_of_spells there
    have same := run.symm.trans run'
    cases same
    rfl
  refine ⟨f, reads, fun fuel enough => ?_, within, fun g valid => ⟨?_, found g⟩, ?_, ?_⟩
  · rw [← Nat.add_sub_cancel' enough]
    exact parseAt_mono _ run
  · rintro rfl
    exact spelled.resolve_left valid
  · rintro rfl g there
    exact there.valid (found g there).symm
  · intro none_
    exact spelled.resolve_right (none_ f)

/-- Bytes other than NUL stand before the NUL. -/
theorem BeginsAt.within {bytes : List UInt8} (there : BeginsAt text i bytes) (nul : text n = 0)
    (inside : i ≤ n) (visible : ∀ c ∈ bytes, c ≠ 0) : i + bytes.length ≤ n := by
  induction bytes generalizing i with
  | nil => exact inside
  | cons c rest ih =>
      obtain ⟨here, later⟩ := there
      have before : i ≠ n := fun same =>
        visible c List.mem_cons_self (by rw [← here, same, nul])
      have bound := ih later (by omega) fun c member => visible c (List.mem_cons_of_mem _ member)
      rw [List.length_cons]
      omega

/-- **The executor stays before the NUL**: a conversion ends before it. -/
theorem Spells.advance_lt (spelled : Spells text i f) (nul : text n = 0) (inside : i ≤ n) :
    i + f.advance < n := by
  have le : f.advance ≤ f.modifiers := by
    unfold Format.advance
    split_ifs
    · exact Nat.zero_le _
    · exact le_rfl
  suffices i + f.modifiers + 1 ≤ n by omega
  cases spelled with
  | number m l there =>
      have modifiers : (l.format m).modifiers = m.bytes.length := by cases m <;> cases l <;> rfl
      have visible : ∀ c ∈ m.bytes ++ [l.byte], c ≠ 0 :=
        List.forall_mem_append.mpr ⟨m.bytes_ne_zero, List.forall_mem_singleton.mpr l.byte_ne_zero⟩
      have bound := there.within nul inside visible
      rw [List.length_append, List.length_singleton] at bound
      rwa [modifiers]
  | str there =>
      have byte : BeginsAt text i [Chr.s] := ⟨there, trivial⟩
      exact byte.within nul inside (List.forall_mem_singleton.mpr (by decide))
  | escapedPercent there =>
      have byte : BeginsAt text i [Chr.percent] := ⟨there, trivial⟩
      exact byte.within nul inside (List.forall_mem_singleton.mpr (by decide))

end Parser

/-! ## `_print` turn by turn -/

/-- Where `_print` is. -/
inductive Phase where
  /-- at the head of the loop -/
  | loop (pattern : Bool)
  /-- in `_print_format`, with the code `_parse_format` returned -/
  | execute (f : Format)
  /-- behind the loop -/
  | done

/-- The state of a call of `_print`. -/
structure Scan where
  phase : Phase
  i : ℕ
  bytes : ℤ
  printed : PrintState
  /-- the indices of `format` that were read, newest first -/
  reads : List ℕ

/-- The beginning of a call. -/
def Scan.start (printed : PrintState) : Scan := ⟨.loop false, 0, 0, printed, []⟩

/-- One step of `_print`: a turn of its loop, in which the call of `_print_format` is
cut at the return of `_parse_format`. -/
inductive PrintStep (env : PrintEnv) (text : ℕ → UInt8) : Scan → Scan → Prop
  | finish {s : Scan} {pattern : Bool} (phase : s.phase = .loop pattern) (nul : text s.i = 0) :
      PrintStep env text s { s with phase := .done, reads := s.i :: s.reads }
  | percent {s : Scan} (phase : s.phase = .loop false) (here : text s.i = Chr.percent) :
      PrintStep env text s
        { s with phase := .loop true, i := s.i + 1, reads := s.i :: s.reads }
  | literal {s : Scan} (phase : s.phase = .loop false) (more : text s.i ≠ 0)
      (other : text s.i ≠ Chr.percent) :
      PrintStep env text s
        { s with
          i := s.i + 1
          bytes := toSsize (s.bytes + 1)
          printed := { s.printed with out := text s.i :: s.printed.out }
          reads := s.i :: s.reads }
  | parse {s : Scan} {fuel : ℕ} {f : Format} {read : List ℕ} (phase : s.phase = .loop true)
      (more : text s.i ≠ 0) (parsed : parseAt text fuel .none s.i = some (f, read)) :
      PrintStep env text s
        { s with phase := .execute f, reads := read.reverse ++ s.i :: s.reads }
  | execute {s : Scan} {f : Format} {written : ℕ} {printed : PrintState}
      (phase : s.phase = .execute f)
      (run : printConversion env f s.printed = .ok (written, printed)) :
      PrintStep env text s
        { s with
          phase := .loop false
          i := s.i + f.advance + 1
          bytes := toSsize (s.bytes + written)
          printed := printed }

/-- **The invariant**: nothing was read behind the NUL, the cursor is not behind it,
and the executor will not move it there. -/
structure Scan.Within (s : Scan) (n : ℕ) : Prop where
  reads : ∀ j ∈ s.reads, j ≤ n
  cursor : s.i ≤ n
  next : ∀ f, s.phase = .execute f → s.i + f.advance < n

section Steps

variable {env : PrintEnv} {text : ℕ → UInt8} {n : ℕ} {s t : Scan}

/-- A byte that is not the NUL is before it. -/
theorem Scan.Within.lt (within : s.Within n) (nul : text n = 0) (more : text s.i ≠ 0) : s.i < n :=
  lt_of_le_of_ne within.cursor fun same => more (same ▸ nul)

/-- A step keeps the invariant. -/
theorem PrintStep.within (step : PrintStep env text s t) (nul : text n = 0)
    (within : s.Within n) : t.Within n := by
  have reads : ∀ j ∈ s.i :: s.reads, j ≤ n :=
    List.forall_mem_cons.mpr ⟨within.cursor, within.reads⟩
  cases step with
  | finish phase here => exact ⟨reads, within.cursor, fun _ other => nomatch other⟩
  | percent phase here =>
      have before := within.lt nul (by rw [here]; decide)
      exact ⟨reads, before, fun _ other => nomatch other⟩
  | literal phase more other =>
      refine ⟨reads, within.lt nul more, fun f execute => ?_⟩
      rw [phase] at execute
      cases execute
  | @parse fuel f read phase more parsed =>
      obtain ⟨g, read', run, bounded, codes, -⟩ := parseAt_spec nul within.cursor
      have same := (run (fuel + 3) (by omega)).symm.trans (parseAt_mono 3 parsed)
      cases same
      refine ⟨fun j member => ?_, within.cursor, fun f' execute => ?_⟩
      · rcases List.mem_append.mp member with new | old
        · exact bounded j (List.mem_reverse.mp new)
        · exact reads j old
      · cases execute
        by_cases invalid : f = .invalid
        · rw [invalid]
          exact within.lt nul more
        · exact ((codes f invalid).mp rfl).advance_lt nul within.cursor
  | execute phase run =>
      exact ⟨within.reads, within.next _ phase, fun _ other => nomatch other⟩

/-- **A run stays within the format.** -/
theorem within_of_run {printed : PrintState} (nul : text n = 0)
    (run : Relation.ReflTransGen (PrintStep env text) (Scan.start printed) t) : t.Within n := by
  induction run with
  | refl => exact ⟨by simp [Scan.start], Nat.zero_le n, fun _ other => nomatch other⟩
  | tail _ step ih => exact step.within nul ih

end Steps

/-! ## The steps are those of `print` -/

/-- The bytes of the format. -/
def formatBytes (text : ℕ → UInt8) (n : ℕ) : List UInt8 := (List.range n).map text

section Simulation

variable {env : PrintEnv} {text : ℕ → UInt8} {n i turns : ℕ} {s : Scan}

theorem formatBytes_getElem? (inside : i < n) : (formatBytes text n)[i]? = some (text i) := by
  rw [formatBytes, List.getElem?_map, List.getElem?_range inside]
  rfl

theorem formatBytes_end : (formatBytes text n)[n]? = none :=
  List.getElem?_eq_none (by simp [formatBytes])

theorem formatBytes_drop (inside : i < n) :
    (formatBytes text n).drop i = text i :: (formatBytes text n).drop (i + 1) := by
  have here : (formatBytes text n)[i]? = some (text i) := formatBytes_getElem? inside
  obtain ⟨bound, same⟩ := List.getElem?_eq_some_iff.mp here
  rw [List.drop_eq_getElem_cons bound, same]

/-- The parser of a list of bytes is that of the memory that holds it. -/
theorem parseLoop_of_parseAt {state f : Format} {d fuel : ℕ} {reads : List ℕ}
    (reading : state.depth = some d) (nul : text n = 0) (inside : i ≤ n)
    (run : parseAt text fuel state i = some (f, reads)) :
    (parseLoop state ((formatBytes text n).drop i)).1 = f := by
  induction fuel generalizing state d i reads with
  | zero => cases run
  | succ fuel ih =>
      rcases inside.lt_or_eq with before | rfl
      · rw [formatBytes_drop before]
        unfold parseLoop
        cases turn : parseStep state (text i) with
        | mk next more =>
            cases more with
            | true =>
                rw [parseAt_go turn] at run
                obtain ⟨r, rest, same⟩ := Option.map_eq_some_iff.mp run
                cases same
                exact ih (parseStep_continues reading turn) before rest
            | false =>
                rw [parseAt_stop turn] at run
                cases run
                rfl
      · rw [parseAt_stop (by rw [nul]; exact parseStep_nul reading)] at run
        cases run
        rw [List.drop_of_length_le (by simp [formatBytes])]
        exact congrArg Prod.fst (parseStep_nul reading)

/-- A turn of `print` after a `%`. -/
theorem printLoop_conversion {format : List UInt8} {c : UInt8} (here : format[i]? = some c)
    (bytes : ℤ) :
    printLoop env format (turns + 1) i true bytes =
      printConversion env (parseFormat format i) >>= fun written =>
        printLoop env format turns (i + (parseFormat format i).advance + 1) false
          (toSsize (bytes + written)) := by
  conv_lhs => unfold printLoop
  rw [here]
  dsimp only
  rw [if_pos rfl, printFormat_eq, Prog.bind_assoc]
  rfl

/-- Where a run stands that does what `print` does: behind the loop if it returns, in
a conversion that never ends if it does not. -/
def Scan.Outcome (env : PrintEnv) (result : Except Stop (ℤ × PrintState)) (t : Scan) : Prop :=
  match result with
  | .ok (bytes, printed) => t.phase = .done ∧ t.bytes = bytes ∧ t.printed = printed
  | .error e => ∃ f, t.phase = .execute f ∧ printConversion env f t.printed = .error e

/-- **The simulation**, by induction on the turns that are left. -/
theorem printLoop_run {pattern : Bool} (str : Terminated text n) (inside : s.i ≤ n)
    (phase : s.phase = .loop pattern) (enough : n < turns + s.i) :
    ∃ t, Relation.ReflTransGen (PrintStep env text) s t ∧
      t.Outcome env
        (printLoop env (formatBytes text n) turns s.i pattern s.bytes s.printed) := by
  induction turns generalizing s pattern with
  | zero => omega
  | succ turns ih =>
      rcases inside.lt_or_eq with before | last
      · have more := str.before s.i before
        have here : (formatBytes text n)[s.i]? = some (text s.i) := formatBytes_getElem? before
        cases pattern with
        | true =>
            obtain ⟨f, reads, parsed, -, codes, -⟩ := parseAt_spec str.nul inside
            have code : parseFormat (formatBytes text n) s.i = f :=
              parseLoop_of_parseAt rfl str.nul inside (parsed 3 le_rfl)
            have parse : PrintStep env text s _ := .parse phase more (parsed 3 le_rfl)
            rw [printLoop_conversion here, code]
            cases run : printConversion env f s.printed with
            | error e =>
                rw [Prog.bind_of_error run]
                exact ⟨_, .single parse, f, rfl, run⟩
            | ok result =>
                obtain ⟨written, printed⟩ := result
                rw [Prog.bind_of_ok run]
                have execute : PrintStep env text
                    { s with phase := .execute f, reads := reads.reverse ++ s.i :: s.reads } _ :=
                  .execute rfl run
                have next : s.i + f.advance + 1 ≤ n := by
                  by_cases invalid : f = .invalid
                  · rw [invalid]
                    exact before
                  · exact ((codes f invalid).mp rfl).advance_lt str.nul inside
                obtain ⟨t, rest, outcome⟩ := ih (s := { s with
                  phase := .loop false
                  i := s.i + f.advance + 1
                  bytes := toSsize (s.bytes + written)
                  printed := printed
                  reads := reads.reverse ++ s.i :: s.reads }) next rfl (by dsimp only; omega)
                exact ⟨t, .head parse (.head execute rest), outcome⟩
        | false =>
            unfold printLoop
            rw [here]
            dsimp only
            rw [if_neg Bool.false_ne_true]
            split_ifs with percent
            · obtain ⟨t, rest, outcome⟩ := ih (s := { s with
                phase := .loop true, i := s.i + 1, reads := s.i :: s.reads }) before rfl
                (by dsimp only; omega)
              exact ⟨t, .head (.percent phase percent) rest, outcome⟩
            · obtain ⟨t, rest, outcome⟩ := ih (s := { s with
                i := s.i + 1
                bytes := toSsize (s.bytes + 1)
                printed := { s.printed with out := text s.i :: s.printed.out }
                reads := s.i :: s.reads }) before phase (by dsimp only; omega)
              exact ⟨t, .head (.literal phase more percent) rest, outcome⟩
      · unfold printLoop
        rw [last, formatBytes_end]
        exact ⟨_, .single (.finish phase (last ▸ str.nul)), rfl, rfl, rfl⟩

/-- A call of `print` is a run of the steps. -/
theorem print_run (env : PrintEnv) (str : Terminated text n) (printed : PrintState) :
    ∃ t, Relation.ReflTransGen (PrintStep env text) (Scan.start printed) t ∧
      t.Outcome env (print env (formatBytes text n) printed) :=
  printLoop_run (s := Scan.start printed) str (Nat.zero_le n) rfl
    (by simp [formatBytes, Scan.start])

/-- **The format scanner.**  At every position of a NUL-terminated format
`_parse_format` ends, reads nothing behind the NUL, and returns the code of a
conversion if and only if that conversion is spelled there, `FORMAT_INVALID` if none
is; the code names the modifier and, up to `d` and `i`, the letter.  In every state a
call of `_print` reaches, no index behind the NUL has been read; and the call does
what `print` does. -/
theorem scanner_exact (str : Terminated text n) :
    (∀ i ≤ n, ∃ f reads, (∀ fuel, 3 ≤ fuel → parseAt text fuel .none i = some (f, reads)) ∧
      (∀ j ∈ reads, j ≤ n) ∧ (∀ g, g ≠ .invalid → (f = g ↔ Spells text i g)) ∧
      (f = .invalid ↔ ∀ g, ¬ Spells text i g)) ∧
    (∀ (m m' : Modifier) (l l' : Letter),
      (l.format m = l'.format m' ↔ m = m' ∧ l.kind = l'.kind) ∧
      (l.format m).conversion.isSome) ∧
    ∀ env printed,
      (∀ t, Relation.ReflTransGen (PrintStep env text) (Scan.start printed) t →
        ∀ j ∈ t.reads, j ≤ n) ∧
      ∃ t, Relation.ReflTransGen (PrintStep env text) (Scan.start printed) t ∧
        t.Outcome env (print env (formatBytes text n) printed) := by
  refine ⟨fun i inside => parseAt_spec str.nul inside, fun m m' l l' =>
    ⟨Letter.format_eq_iff m m' l l', Letter.format_conversion m l⟩, fun env printed => ⟨?_, ?_⟩⟩
  · intro t run
    exact (within_of_run str.nul run).reads
  · exact print_run env str printed

/-- The format `%l`, which ends within a conversion. -/
def cutFormat (i : ℕ) : UInt8 := if i = 0 then Chr.percent else if i = 1 then Chr.l else 0

theorem scanner_exact_cut :
    (∀ i ≤ 2, ∃ f reads, (∀ fuel, 3 ≤ fuel → parseAt cutFormat fuel .none i = some (f, reads)) ∧
      (∀ j ∈ reads, j ≤ 2) ∧ (∀ g, g ≠ .invalid → (f = g ↔ Spells cutFormat i g)) ∧
      (f = .invalid ↔ ∀ g, ¬ Spells cutFormat i g)) ∧
    (∀ (m m' : Modifier) (l l' : Letter),
      (l.format m = l'.format m' ↔ m = m' ∧ l.kind = l'.kind) ∧
      (l.format m).conversion.isSome) ∧
    ∀ env printed,
      (∀ t, Relation.ReflTransGen (PrintStep env cutFormat) (Scan.start printed) t →
        ∀ j ∈ t.reads, j ≤ 2) ∧
      ∃ t, Relation.ReflTransGen (PrintStep env cutFormat) (Scan.start printed) t ∧
        t.Outcome env (print env (formatBytes cutFormat 2) printed) :=
  scanner_exact ⟨rfl, by decide⟩

end Simulation

end TrashOS
