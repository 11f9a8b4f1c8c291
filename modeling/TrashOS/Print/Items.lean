import TrashOS.Print.Format

/-!
# A format as a list of items

The loop of `_print` interleaves reading the format, reading arguments and
writing.  This file takes the three apart: `scan` cuts a format into literal
bytes and conversions, `runItems` writes such a list, and `printLoop_eq_runItems`
says that the loop is the second after the first.

A conversion is described by the four values its case of `_print_format` uses
(`Conversion`).  The parser has three pointer conversions which the executor has
no case for, `Format.Missing`.
-/

namespace TrashOS

/-! ## Conversions -/

/-- The printing routine of a conversion. -/
inductive Routine where
  | signed | unsigned | oct | hex | bigHex | ptr
  deriving DecidableEq, Repr

/-- The code of a routine. -/
def Routine.code (env : PrintEnv) : Routine → ℕ → ℕ → PrintM ℕ
  | .signed => printDecSigned env
  | .unsigned => printDecUnsigned env
  | .oct => printOct env
  | .hex => printHex env
  | .bigHex => printHexUpper env
  | .ptr => printPtr env

/-- A conversion of a number: the type of its argument, its routine, the size in bytes it prints,
and how many modifier letters stand before the conversion letter. -/
structure Conversion where
  type : ArgType
  routine : Routine
  size : ℕ
  modifiers : ℕ
  deriving DecidableEq, Repr

/-- The conversion a result of the parser names, if it is one of a number. -/
def Format.conversion : Format → Option Conversion
  | .shortShortInt => some ⟨.int, .signed, 1, 2⟩
  | .shortInt => some ⟨.int, .signed, 2, 1⟩
  | .int => some ⟨.int, .signed, 4, 0⟩
  | .longInt => some ⟨.int64, .signed, 8, 1⟩
  | .longLongInt => some ⟨.int64, .signed, 8, 2⟩
  | .shortShortUint => some ⟨.int, .unsigned, 1, 2⟩
  | .shortUint => some ⟨.int, .unsigned, 2, 1⟩
  | .uint => some ⟨.int, .unsigned, 4, 0⟩
  | .longUint => some ⟨.int64, .unsigned, 8, 1⟩
  | .longLongUint => some ⟨.int64, .unsigned, 8, 2⟩
  | .shortShortPtr => some ⟨.int, .ptr, 1, 2⟩
  | .shortPtr => some ⟨.int, .ptr, 2, 1⟩
  | .ptr => some ⟨.uintptr, .ptr, 4, 0⟩
  | .longPtr => some ⟨.int64, .ptr, 8, 1⟩
  | .longLongPtr => some ⟨.int64, .ptr, 8, 2⟩
  | .shortShortOct => some ⟨.int, .oct, 1, 2⟩
  | .shortOct => some ⟨.int, .oct, 2, 1⟩
  | .oct => some ⟨.int, .oct, 4, 0⟩
  | .longOct => some ⟨.int64, .oct, 8, 1⟩
  | .longLongOct => some ⟨.int64, .oct, 8, 2⟩
  | .shortShortHex => some ⟨.int, .hex, 1, 2⟩
  | .shortHex => some ⟨.int, .hex, 2, 1⟩
  | .hex => some ⟨.int, .hex, 4, 0⟩
  | .longHex => some ⟨.int64, .hex, 8, 1⟩
  | .longLongHex => some ⟨.int64, .hex, 8, 2⟩
  | .shortShortBigHex => some ⟨.int, .bigHex, 1, 2⟩
  | .shortBigHex => some ⟨.int, .bigHex, 2, 1⟩
  | .bigHex => some ⟨.int, .bigHex, 4, 0⟩
  | .longBigHex => some ⟨.int64, .bigHex, 8, 1⟩
  | .longLongBigHex => some ⟨.int64, .bigHex, 8, 2⟩
  | _ => Option.none

/-- The argument a conversion reads. -/
def Format.argType (f : Format) : Option ArgType :=
  match f with
  | .str => some .string
  | f => f.conversion.map Conversion.type

/-- The modifier letters of a conversion. -/
def Format.modifiers (f : Format) : ℕ := (f.conversion.map Conversion.modifiers).getD 0

/-- What `_parse_format` can return: a conversion, or that there is none. -/
def Format.Final (f : Format) : Prop :=
  f.conversion.isSome ∨ f = .str ∨ f = .escapedPercent ∨ f = .invalid

/-- The pointer conversions `_print_format` has no case for. -/
def Format.Missing (f : Format) : Prop :=
  f = .shortShortPtr ∨ f = .shortPtr ∨ f = .longLongPtr

instance (f : Format) : Decidable f.Missing := by
  unfold Format.Missing
  infer_instance

/-! ## The parser -/

/-- How many modifier letters the parser has read in a state it goes on from. -/
def Format.depth : Format → Option ℕ
  | .none => some 0
  | .short | .long => some 1
  | .shortShort | .longLong => some 2
  | _ => Option.none

/-- The last turn of the parser. -/
theorem parseStep_stops {state f : Format} {c : UInt8} {d : ℕ} (reading : state.depth = some d)
    (step : parseStep state c = (f, false)) :
    f.Final ∧ (f ≠ .invalid → f.modifiers = d) := by
  cases state <;> cases reading <;> simp only [parseStep] at step <;> split at step <;>
    cases step <;> simp [Format.Final, Format.modifiers, Format.conversion]

/-- Every other turn reads one more modifier. -/
theorem parseStep_continues {state next : Format} {c : UInt8} {d : ℕ}
    (reading : state.depth = some d) (step : parseStep state c = (next, true)) :
    next.depth = some (d + 1) := by
  cases state <;> cases reading <;> simp only [parseStep] at step <;> split at step <;>
    cases step <;> rfl

/-- The NUL byte ends the loop in every state. -/
theorem parseStep_nul {state : Format} {d : ℕ} (reading : state.depth = some d) :
    parseStep state 0 = (.invalid, false) := by
  cases state <;> cases reading <;> rfl

theorem parseLoop_final (rest : List UInt8) {state : Format} {d : ℕ}
    (reading : state.depth = some d) :
    (parseLoop state rest).1.Final ∧ ((parseLoop state rest).1 ≠ .invalid →
      (parseLoop state rest).1.modifiers + 1 = d + (parseLoop state rest).2) := by
  induction rest generalizing state d with
  | nil =>
    simp only [parseLoop, parseStep_nul reading]
    exact ⟨by simp [Format.Final], by simp⟩
  | cons c rest ih =>
    unfold parseLoop
    split
    · rename_i next step
      obtain ⟨final, length⟩ := ih (parseStep_continues reading step)
      refine ⟨final, fun valid => ?_⟩
      have total := length valid
      dsimp only
      omega
    · rename_i f step
      obtain ⟨final, modifiers⟩ := parseStep_stops reading step
      exact ⟨final, fun valid => by rw [modifiers valid]⟩

/-- How many bytes of the format `_parse_format` reads from `i` on. -/
def parseLength (format : List UInt8) (i : ℕ) : ℕ := (parseLoop .none (format.drop i)).2

theorem parseFormat_final (format : List UInt8) (i : ℕ) : (parseFormat format i).Final :=
  (parseLoop_final (format.drop i) (show Format.depth .none = some 0 from rfl)).1

/-- The bytes read are the modifiers and the conversion letter. -/
theorem parseLength_eq {format : List UInt8} {i : ℕ} (valid : parseFormat format i ≠ .invalid) :
    parseLength format i = (parseFormat format i).modifiers + 1 := by
  have length :=
    (parseLoop_final (format.drop i) (show Format.depth .none = some 0 from rfl)).2 valid
  unfold parseLength parseFormat
  omega

/-! ## The executor -/

/-- How far `_print_format` moves the cursor, by the conversion. -/
def Format.advance (f : Format) : ℕ := if f.Missing then 0 else f.modifiers

/-- How many argument words `_print_format` takes. -/
def Format.words (f : Format) : ℕ :=
  if f.Missing then 0 else (f.argType.map ArgType.words).getD 0

/-- `_print_format` without the cursor. -/
def printConversion (env : PrintEnv) (f : Format) : PrintM ℕ :=
  if f.Missing ∨ f = .invalid then do
    putc Chr.question
    putc Chr.question
    putc Chr.question
    pure 3
  else if f = .escapedPercent then do
    putc Chr.percent
    pure 1
  else match f.conversion with
    | some conv => do
      let val ← vaArg env conv.type
      conv.routine.code env (val % 2 ^ (conv.size * bitsPerByte)) conv.size
    | Option.none => do
      let s ← vaArg env .string
      printString (env.text s)

/-- What a conversion does not depend on where it stands. -/
theorem printFormat_eq (env : PrintEnv) (format : List UInt8) (i : ℕ) :
    printFormat env format i =
      printConversion env (parseFormat format i) >>= fun written =>
        pure (written, i + (parseFormat format i).advance) := by
  have final := parseFormat_final format i
  unfold printFormat
  generalize parseFormat format i = f at final ⊢
  cases f <;> first
    | rfl
    | (simp [Format.Final, Format.conversion] at final)

/-! ## The items of a format -/

/-- A byte printed as it is, or a conversion and the position after its `%`. -/
inductive Item where
  | literal (c : UInt8)
  | conversion (pos : ℕ) (f : Format)

/-- Cut a format into items from position `i` on; `advance` is how far the cursor moves within a
conversion. -/
def scan (advance : Format → ℕ) (format : List UInt8) : ℕ → ℕ → Bool → List Item
  | 0, _, _ => []
  | turns + 1, i, pattern =>
    match format[i]? with
    | none => []
    | some c =>
      if pattern then
        .conversion i (parseFormat format i) ::
          scan advance format turns (i + advance (parseFormat format i) + 1) false
      else if c = Chr.percent then scan advance format turns (i + 1) true
      else .literal c :: scan advance format turns (i + 1) false

/-- One turn of `scan`. -/
theorem scan_succ (advance : Format → ℕ) (format : List UInt8) (turns i : ℕ) (pattern : Bool) :
    scan advance format (turns + 1) i pattern =
      match format[i]? with
      | none => []
      | some c =>
        if pattern then
          .conversion i (parseFormat format i) ::
            scan advance format turns (i + advance (parseFormat format i) + 1) false
        else if c = Chr.percent then scan advance format turns (i + 1) true
        else .literal c :: scan advance format turns (i + 1) false := rfl

/-- The items `_print` goes through. -/
def executed (format : List UInt8) : List Item :=
  scan Format.advance format (format.length + 1) 0 false

/-- The items the parser cuts the format into. -/
def parsed (format : List UInt8) : List Item :=
  scan Format.modifiers format (format.length + 1) 0 false

def printItem (env : PrintEnv) : Item → PrintM ℕ
  | .literal c => do
    putc c
    pure 1
  | .conversion _ f => printConversion env f

/-- Print the items in order and add up. -/
def runItems (env : PrintEnv) : List Item → ℤ → PrintM ℤ
  | [], bytes => pure bytes
  | item :: rest, bytes => do
    let written ← printItem env item
    runItems env rest (toSsize (bytes + written))

theorem printLoop_eq_runItems (env : PrintEnv) (format : List UInt8) (turns i : ℕ)
    (pattern : Bool) (bytes : ℤ) :
    printLoop env format turns i pattern bytes =
      runItems env (scan Format.advance format turns i pattern) bytes := by
  induction turns generalizing i pattern bytes with
  | zero => rfl
  | succ turns ih =>
    unfold printLoop scan
    cases format[i]? with
    | none => rfl
    | some c =>
      dsimp only
      by_cases conversion : pattern = true
      · rw [if_pos conversion, if_pos conversion, printFormat_eq, Prog.bind_assoc]
        unfold runItems printItem
        congr 1
        funext written
        rw [← ih]
        rfl
      · rw [if_neg conversion, if_neg conversion]
        split
        · exact ih (i + 1) true bytes
        · unfold runItems printItem
          rw [Prog.bind_assoc]
          congr 1
          funext unit_
          exact ih (i + 1) false (toSsize (bytes + 1))

/-- **`_print` prints the executed items in order.** -/
theorem print_eq_runItems (env : PrintEnv) (format : List UInt8) :
    print env format = runItems env (executed format) 0 :=
  printLoop_eq_runItems env format _ 0 false 0

/-- Every item is a literal byte or what the parser finds at a position. -/
theorem mem_scan {advance : Format → ℕ} {format : List UInt8} {turns i : ℕ} {pattern : Bool}
    {item : Item} (mem : item ∈ scan advance format turns i pattern) :
    (∃ c, item = .literal c) ∨ ∃ pos, item = .conversion pos (parseFormat format pos) := by
  induction turns generalizing i pattern with
  | zero => simp [scan] at mem
  | succ turns ih =>
    rw [scan_succ] at mem
    cases here : format[i]? with
    | none => simp [here] at mem
    | some c =>
      simp only [here] at mem
      split at mem
      · rcases List.mem_cons.mp mem with rfl | later
        · exact Or.inr ⟨i, rfl⟩
        · exact ih later
      · split at mem
        · exact ih mem
        · rcases List.mem_cons.mp mem with rfl | later
          · exact Or.inl ⟨c, rfl⟩
          · exact ih later

end TrashOS
