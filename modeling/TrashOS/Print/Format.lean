import TrashOS.Lib.Loop
import TrashOS.Lib.Program
import TrashOS.Machine
import TrashOS.Print.Math

/-!
# Formatted printing (`_print.c`)

`_print.c` is included by `printk.c` and `init_printk.c`, which differ in what
`VGA_PUTC` is.  The model keeps the bytes given to `VGA_PUTC` in a list, so that
both are the same program followed by a driver.

* **Arguments.**  `va_arg` takes its bytes from the caller's stack, which is an
  array of 32-bit words; a 64-bit argument is two words, the low one first.
  `reads` notes which words were taken as what.
* **Strings.**  A `%s` argument is the address of a NUL-terminated string;
  `text` gives its bytes.
* **What C leaves open** are fields of the environment: the value of
  `1 << 63` in `int` arithmetic, and what `hex[n]` reads past the table.
-/

namespace TrashOS

/-! ## The bytes of a format -/

namespace Chr

@[match_pattern] abbrev percent : UInt8 := 37
@[match_pattern] abbrev minus : UInt8 := 45
@[match_pattern] abbrev zero : UInt8 := 48
@[match_pattern] abbrev question : UInt8 := 63
@[match_pattern] abbrev X : UInt8 := 88
@[match_pattern] abbrev d : UInt8 := 100
@[match_pattern] abbrev h : UInt8 := 104
@[match_pattern] abbrev i : UInt8 := 105
@[match_pattern] abbrev l : UInt8 := 108
@[match_pattern] abbrev o : UInt8 := 111
@[match_pattern] abbrev p : UInt8 := 112
@[match_pattern] abbrev s : UInt8 := 115
@[match_pattern] abbrev u : UInt8 := 117
@[match_pattern] abbrev x : UInt8 := 120

end Chr

/-- The `FORMAT_*` enumeration. -/
inductive Format where
  | invalid
  | none
  -- intermediate states
  | short | shortShort | long | longLong
  -- signed int formats
  | shortShortInt | shortInt | int | longInt | longLongInt
  -- unsigned int formats
  | shortShortUint | shortUint | uint | longUint | longLongUint
  -- pointer formats
  | shortShortPtr | shortPtr | ptr | longPtr | longLongPtr
  -- oct formats
  | shortShortOct | shortOct | oct | longOct | longLongOct
  -- hex formats
  | shortShortHex | shortHex | hex | longHex | longLongHex
  | shortShortBigHex | shortBigHex | bigHex | longBigHex | longLongBigHex
  -- string formats
  | str
  | escapedPercent
  deriving DecidableEq, Repr

/-- One turn of the loop of `_parse_format`: the new `format_state` and `reading_format`. -/
def parseStep : Format → UInt8 → Format × Bool
  | .none, c =>
    match c with
    | Chr.h => (.short, true)
    | Chr.l => (.long, true)
    | Chr.d | Chr.i => (.int, false)
    | Chr.u => (.uint, false)
    | Chr.p => (.ptr, false)
    | Chr.o => (.oct, false)
    | Chr.x => (.hex, false)
    | Chr.X => (.bigHex, false)
    | Chr.s => (.str, false)
    | Chr.percent => (.escapedPercent, false)
    | _ => (.invalid, false)
  | .short, c =>
    match c with
    | Chr.h => (.shortShort, true)
    | Chr.d | Chr.i => (.shortInt, false)
    | Chr.u => (.shortUint, false)
    | Chr.p => (.shortPtr, false)
    | Chr.o => (.shortOct, false)
    | Chr.x => (.shortHex, false)
    | Chr.X => (.shortBigHex, false)
    | _ => (.invalid, false)
  | .shortShort, c =>
    match c with
    | Chr.d | Chr.i => (.shortShortInt, false)
    | Chr.u => (.shortShortUint, false)
    | Chr.p => (.shortShortPtr, false)
    | Chr.o => (.shortShortOct, false)
    | Chr.x => (.shortShortHex, false)
    | Chr.X => (.shortShortBigHex, false)
    | _ => (.invalid, false)
  | .long, c =>
    match c with
    | Chr.l => (.longLong, true)
    | Chr.d | Chr.i => (.longInt, false)
    | Chr.u => (.longUint, false)
    | Chr.p => (.longPtr, false)
    | Chr.o => (.longOct, false)
    | Chr.x => (.longHex, false)
    | Chr.X => (.longBigHex, false)
    | _ => (.invalid, false)
  | .longLong, c =>
    match c with
    | Chr.d | Chr.i => (.longLongInt, false)
    | Chr.u => (.longLongUint, false)
    | Chr.p => (.longLongPtr, false)
    | Chr.o => (.longLongOct, false)
    | Chr.x => (.longLongHex, false)
    | Chr.X => (.longLongBigHex, false)
    | _ => (.invalid, false)
  -- the switch has no other case: the state stays and the loop goes on
  | state, _ => (state, true)

/-- The loop of `_parse_format` over the rest of the format, which ends in a NUL byte: the last
`format_state` and how often `i` was incremented. -/
def parseLoop : Format → List UInt8 → Format × ℕ
  | state, [] => ((parseStep state 0).1, 1)
  | state, c :: rest =>
    match parseStep state c with
    | (state', true) => ((parseLoop state' rest).1, (parseLoop state' rest).2 + 1)
    | (state', false) => (state', 1)

/-- `_parse_format` on the bytes of `format` before its NUL. -/
def parseFormat (format : List UInt8) (i : ℕ) : Format := (parseLoop .none (format.drop i)).1

/-! ## The environment and the state of a call -/

/-- What a call of `_print` finds. -/
structure PrintEnv where
  /-- the argument words -/
  word : ℕ → UInt32
  /-- the bytes at an address up to the next NUL -/
  text : ℕ → List UInt8
  /-- `1 << 63` as an `int`, converted to 64 bits: undefined in C -/
  shift63 : ℕ
  /-- what is read past the end of the `hex` table -/
  beyond : ℕ → UInt8

/-- The types `_print_format` gives to `va_arg`. -/
inductive ArgType where
  /-- `int`, `int32_t` or `unsigned int` -/
  | int
  /-- `int64_t` or `uint64_t` -/
  | int64
  /-- `uintptr_t` -/
  | uintptr
  /-- `const char *` -/
  | string
  deriving DecidableEq, Repr

/-- How many words of the stack an argument takes. -/
def ArgType.words : ArgType → ℕ
  | .int64 => 2
  | _ => 1

/-- One use of `va_arg`: the index of its first word and its type. -/
structure VaRead where
  index : ℕ
  type : ArgType
  deriving DecidableEq, Repr

structure PrintState where
  /-- the next argument word -/
  ap : ℕ
  /-- the uses of `va_arg`, newest first -/
  reads : List VaRead
  /-- the bytes given to `VGA_PUTC`, newest first -/
  out : List UInt8
  deriving DecidableEq, Repr

abbrev PrintM (α : Type) : Type := Prog PrintState Stop α

/-- `VGA_PUTC(c)` -/
def putc (c : UInt8) : PrintM Unit := Prog.update fun s => { s with out := c :: s.out }

/-- The value of an argument whose first word has the index `ap`. -/
def vaValue (env : PrintEnv) (type : ArgType) (ap : ℕ) : ℕ :=
  match type with
  | .int64 => (env.word ap).toNat + 2 ^ 32 * (env.word (ap + 1)).toNat
  | _ => (env.word ap).toNat

/-- `va_arg(*arg, type)` -/
def vaArg (env : PrintEnv) (type : ArgType) : PrintM ℕ := fun s =>
  .ok (vaValue env type s.ap, { s with
    ap := s.ap + type.words
    reads := ⟨s.ap, type⟩ :: s.reads })

/-! ## The printing routines -/

/-- `BITS_PER_BYTE` -/
abbrev bitsPerByte : ℕ := 8

/-- The lower case table, indexed within its bounds or not. -/
def hexDigit (env : PrintEnv) (n : ℕ) : UInt8 :=
  if n < 10 then Chr.zero + n.toUInt8 else if n < 16 then 87 + n.toUInt8 else env.beyond n

/-- The upper case table. -/
def hexDigitUpper (env : PrintEnv) (n : ℕ) : UInt8 :=
  if n < 10 then Chr.zero + n.toUInt8 else if n < 16 then 55 + n.toUInt8 else env.beyond n

/-- The loop with which each routine collects the `size` bytes at `num_addr`. -/
def collect (object size : ℕ) : ℕ :=
  Loop.upto size (fun i num =>
    num ||| (object / 2 ^ (i * bitsPerByte) % 2 ^ 8) <<< (i * bitsPerByte)) 0

/-- `for (j = step * k; j >= 0; j -= step) body(j);` -/
def countdown (step : ℕ) : ℕ → (ℕ → PrintM Unit) → PrintM Unit
  | 0, body => body 0
  | k + 1, body => do
    body (step * (k + 1))
    countdown step k body

/-- `div64(a, b)` -/
def callDiv64 (a b : ℕ) : PrintM ℕ :=
  match div64 a b with
  | some q => pure q
  | none => Prog.stop .fuel

/-- The digit loop of the decimal routines from `EXP10[j]` downwards.  `digit` is the conversion
the quotient goes through. -/
def printDigits (env : PrintEnv) (digit : ℕ → ℕ) : ℕ → ℕ → PrintM Unit
  | 0, num => do
    let q ← callDiv64 num (EXP10 0)
    putc (hexDigit env (digit q))
  | j + 1, num => do
    let q ← callDiv64 num (EXP10 (j + 1))
    putc (hexDigit env (digit q))
    printDigits env digit j ((num + (2 ^ 64 - digit q * EXP10 (j + 1) % 2 ^ 64)) % 2 ^ 64)

/-- `int digit = …`, used in 64-bit arithmetic: 32 bits are kept and the sign is extended. -/
def intDigit (q : ℕ) : ℕ :=
  if q % 2 ^ 32 < 2 ^ 31 then q % 2 ^ 32 else q % 2 ^ 32 + (2 ^ 64 - 2 ^ 32)

/-- `_print_dec_unsigned` -/
def printDecUnsigned (env : PrintEnv) (object size : ℕ) : PrintM ℕ := do
  let num := collect object size
  let j := ilog10u num
  printDigits env intDigit j num
  pure (j + 1)

/-- `_print_oct` -/
def printOct (env : PrintEnv) (object size : ℕ) : PrintM ℕ := do
  let num := collect object size
  let turns := ilog2u num / 3
  countdown 3 turns fun j => putc (hexDigit env (num >>> j &&& 0x7))
  pure (turns + 1)

/-- `_print_hex` and `_print_Hex`, which differ in the table. -/
def printHexWith (table : ℕ → UInt8) (object size : ℕ) : PrintM ℕ := do
  let num := collect object size
  let turns := ilog2u num / 4
  countdown 4 turns fun j => putc (table (num >>> j &&& 0xf))
  pure (turns + 1)

/-- `_print_hex` -/
def printHex (env : PrintEnv) : ℕ → ℕ → PrintM ℕ := printHexWith (hexDigit env)

/-- `_print_Hex` -/
def printHexUpper (env : PrintEnv) : ℕ → ℕ → PrintM ℕ := printHexWith (hexDigitUpper env)

/-- `_print_ptr`: the count it returns is that of a 64-bit number. -/
def printPtr (env : PrintEnv) (object size : ℕ) : PrintM ℕ := do
  let num := collect object size
  putc Chr.zero
  putc Chr.x
  countdown 4 (2 * size - 1) fun j => putc (hexDigit env (num >>> j &&& 0xf))
  pure (2 + 8 * 2)

/-- `1 << (num_size * BITS_PER_BYTE - 1)`, an `int`, converted to 64 bits. -/
def signMask (env : PrintEnv) (size : ℕ) : ℕ :=
  if size = 8 then env.shift63
  else if size = 4 then 2 ^ 64 - 2 ^ 31
  else 2 ^ (size * bitsPerByte - 1)

/-- The magnitude `_print_dec_signed` prints, and whether it prints a sign. -/
def signedMagnitude (env : PrintEnv) (object size : ℕ) : ℕ × Bool :=
  let num := collect object size
  if num &&& signMask env size ≠ 0 then
    let extended := num ||| if size = 8 then 0 else 2 ^ 64 - 2 ^ (size * bitsPerByte)
    ((2 ^ 64 - extended) % 2 ^ 64, true)
  else (num, false)

/-- `_print_dec_signed` -/
def printDecSigned (env : PrintEnv) (object size : ℕ) : PrintM ℕ := do
  let (num, negative) := signedMagnitude env object size
  if negative then putc Chr.minus
  let j := ilog10u num
  printDigits env id j num
  pure ((if negative then 1 else 0) + (j + 1))

/-- The loop of `%s`. -/
def printString : List UInt8 → PrintM ℕ
  | [] => pure 0
  | c :: rest => do
    putc c
    let bytes ← printString rest
    pure (bytes + 1)

/-! ## The executor -/

/-- One case of `_print_format`: read an argument into the member of `size` bytes, print it, and
move the cursor. -/
def printArg (env : PrintEnv) (type : ArgType) (print : ℕ → ℕ → PrintM ℕ) (size advance i : ℕ) :
    PrintM (ℕ × ℕ) := do
  let val ← vaArg env type
  let bytes ← print (val % 2 ^ (size * bitsPerByte)) size
  pure (bytes, i + advance)

/-- `_print_format`: the bytes written and the new `*i`. -/
def printFormat (env : PrintEnv) (format : List UInt8) (i : ℕ) : PrintM (ℕ × ℕ) :=
  match parseFormat format i with
  | .shortShortInt => printArg env .int (printDecSigned env) 1 2 i
  | .shortInt => printArg env .int (printDecSigned env) 2 1 i
  | .int => printArg env .int (printDecSigned env) 4 0 i
  | .longInt => printArg env .int64 (printDecSigned env) 8 1 i
  | .longLongInt => printArg env .int64 (printDecSigned env) 8 2 i
  | .shortShortUint => printArg env .int (printDecUnsigned env) 1 2 i
  | .shortUint => printArg env .int (printDecUnsigned env) 2 1 i
  | .uint => printArg env .int (printDecUnsigned env) 4 0 i
  | .longUint => printArg env .int64 (printDecUnsigned env) 8 1 i
  | .longLongUint => printArg env .int64 (printDecUnsigned env) 8 2 i
  | .shortShortOct => printArg env .int (printOct env) 1 2 i
  | .shortOct => printArg env .int (printOct env) 2 1 i
  | .oct => printArg env .int (printOct env) 4 0 i
  | .longOct => printArg env .int64 (printOct env) 8 1 i
  | .longLongOct => printArg env .int64 (printOct env) 8 2 i
  | .shortShortHex => printArg env .int (printHex env) 1 2 i
  | .shortHex => printArg env .int (printHex env) 2 1 i
  | .hex => printArg env .int (printHex env) 4 0 i
  | .longHex => printArg env .int64 (printHex env) 8 1 i
  | .longLongHex => printArg env .int64 (printHex env) 8 2 i
  | .shortShortBigHex => printArg env .int (printHexUpper env) 1 2 i
  | .shortBigHex => printArg env .int (printHexUpper env) 2 1 i
  | .bigHex => printArg env .int (printHexUpper env) 4 0 i
  | .longBigHex => printArg env .int64 (printHexUpper env) 8 1 i
  | .longLongBigHex => printArg env .int64 (printHexUpper env) 8 2 i
  | .ptr => printArg env .uintptr (printPtr env) 4 0 i
  | .longPtr => printArg env .int64 (printPtr env) 8 1 i
  | .str => do
    let s ← vaArg env .string
    let bytes ← printString (env.text s)
    pure (bytes, i)
  | .escapedPercent => do
    putc Chr.percent
    pure (1, i)
  | _ => do
    putc Chr.question
    putc Chr.question
    putc Chr.question
    pure (3, i)

/-- A value of `ssize_t`: 32 bits, signed.  The total is brought back into range at each addition,
the counts that are added to it are kept exact. -/
def toSsize (n : ℤ) : ℤ := n.bmod (2 ^ 32)

/-- The loop of `_print` from position `i` on.  `_print_format` never moves the cursor back, so
at most `format.length - i` turns are left; `turns` counts them. -/
def printLoop (env : PrintEnv) (format : List UInt8) : ℕ → ℕ → Bool → ℤ → PrintM ℤ
  | 0, _, _, bytes => pure bytes
  | turns + 1, i, pattern, bytes =>
    match format[i]? with
    | none => pure bytes
    | some c =>
      if pattern then do
        let (written, i') ← printFormat env format i
        printLoop env format turns (i' + 1) false (toSsize (bytes + written))
      else if c = Chr.percent then printLoop env format turns (i + 1) true bytes
      else do
        putc c
        printLoop env format turns (i + 1) false (toSsize (bytes + 1))

/-- `_print` -/
def print (env : PrintEnv) (format : List UInt8) : PrintM ℤ :=
  printLoop env format (format.length + 1) 0 false 0

end TrashOS
