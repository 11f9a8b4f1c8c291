import TrashOS.Print.Decimal

/-!
# What `_print_oct`, `_print_hex`, `_print_Hex` and `_print_ptr` print

The four routines shift the operand down by ever fewer bits and print the lowest
digit each time.  The first shift of the first three is the base-2 logarithm of the
operand rounded down to whole digits, so the first digit is not zero and nothing is
above it; `_print_ptr` starts at the width of the operand.

`readNumeral` reads a text back.  `printRadix_canonical` says that reading inverts
printing, and that the first three print no more digits than it takes.
-/

namespace TrashOS

/-! ## Reading numerals -/

/-- The value of a digit of base `b`, where `ten` is the character of the digit after
nine. -/
def digitValue (ten : UInt8) (b : ℕ) (c : UInt8) : Option ℕ :=
  let value :=
    if Chr.zero ≤ c ∧ c < Chr.zero + 10 then some (c.toNat - Chr.zero.toNat)
    else if ten ≤ c ∧ c < ten + 6 then some (c.toNat - ten.toNat + 10)
    else none
  value.filter fun d => d < b

/-- The value of a numeral of base `b`, if all its characters are digits. -/
def readNumeral (ten : UInt8) (b : ℕ) (text : List UInt8) : Option ℕ :=
  (text.mapM (digitValue ten b)).map fun digits => Nat.ofDigits b digits.reverse

/-- `a`, the first letter of the lower case digits. -/
def lowerTen : UInt8 := 97

/-- `A`, the first letter of the upper case digits. -/
def upperTen : UInt8 := 65

/-- The numeral of a number: it reads back, and has no leading zero but that of
zero. -/
structure Canonical (ten : UInt8) (b value : ℕ) (text : List UInt8) : Prop where
  reads : readNumeral ten b text = some value
  zero : value = 0 → text = [Chr.zero]
  leading : value ≠ 0 → text.head? ≠ some Chr.zero

/-- The characters of a table are the digits of base `b`. -/
structure IsTable (ten : UInt8) (b : ℕ) (table : ℕ → UInt8) : Prop where
  zero : table 0 = Chr.zero
  reads : ∀ d < b, digitValue ten b (table d) = some d

theorem hexDigit_isTable (env : PrintEnv) : IsTable lowerTen 16 (hexDigit env) := by
  refine ⟨rfl, fun d small => ?_⟩
  interval_cases d <;> rfl

theorem hexDigit_isTable_oct (env : PrintEnv) : IsTable lowerTen 8 (hexDigit env) := by
  refine ⟨rfl, fun d small => ?_⟩
  interval_cases d <;> rfl

theorem hexDigitUpper_isTable (env : PrintEnv) : IsTable upperTen 16 (hexDigitUpper env) := by
  refine ⟨rfl, fun d small => ?_⟩
  interval_cases d <;> rfl

section Reading

variable {ten : UInt8} {b k value : ℕ} {table : ℕ → UInt8}

theorem mapM_digitValue (isTable : IsTable ten b table) {digits : List ℕ}
    (small : ∀ d ∈ digits, d < b) :
    (digits.map table).mapM (digitValue ten b) = some digits := by
  induction digits with
  | nil => rfl
  | cons d digits ih =>
      have first := isTable.reads d (small d List.mem_cons_self)
      have rest := ih fun e member => small e (List.mem_cons_of_mem d member)
      rw [List.map_cons, List.mapM_cons, first, rest]
      rfl

/-- Reading inverts writing the digits of a number that has none above the first. -/
theorem readNumeral_digitsFrom (isTable : IsTable ten b table) (low : value < b ^ (k + 1)) :
    readNumeral ten b ((Numeral.digitsFrom b k value).map table) = some value := by
  unfold readNumeral
  rw [mapM_digitValue isTable fun d => Numeral.lt_of_mem_digitsFrom low, Option.map_some,
    Numeral.ofDigits_digitsFrom]

/-- The digits from the highest one down are the numeral. -/
theorem canonical_digitsFrom (base : 1 < b) (isTable : IsTable ten b table)
    (high : k = 0 ∨ b ^ k ≤ value) (low : value < b ^ (k + 1)) :
    Canonical ten b value ((Numeral.digitsFrom b k value).map table) where
  reads := readNumeral_digitsFrom isTable low
  zero := by
    intro zero
    rw [← Numeral.numeral_eq_digitsFrom base high low, zero]
    simp [Numeral.numeral, isTable.zero]
  leading := by
    intro nonzero leads
    rw [← Numeral.numeral_eq_digitsFrom base high low, List.head?_map] at leads
    obtain ⟨d, head, same⟩ := Option.map_eq_some_iff.mp leads
    -- only the digit zero has the character of zero
    have small := Numeral.lt_of_mem_numeral base (List.mem_of_head? head)
    have read := isTable.reads d small
    rw [same, ← isTable.zero, isTable.reads 0 (by omega)] at read
    cases read
    exact Numeral.head_numeral nonzero head

end Reading

/-! ## The shift of the first digit -/

/-- `ilog2u` is the logarithm, but for zero. -/
theorem ilog2u_reached (v : ℕ) : ilog2u v = 0 ∨ 2 ^ ilog2u v ≤ v := by
  induction v using ilog2u.induct with
  | case1 v last =>
      rw [ilog2u, if_pos last]
      exact Or.inl rfl
  | case2 v more ih =>
      right
      rw [ilog2u, if_neg more, pow_succ]
      rcases ih with zero | reached
      · rw [zero]
        omega
      · omega

theorem lt_pow_ilog2u (v : ℕ) : v < 2 ^ (ilog2u v + 1) := by
  induction v using ilog2u.induct with
  | case1 v last =>
      rw [ilog2u, if_pos last]
      omega
  | case2 v more ih =>
      rw [ilog2u, if_neg more, pow_succ]
      omega

/-- Rounded down to whole digits of `step` bits, it is the place of the first digit. -/
theorem place_reached (step v : ℕ) :
    ilog2u v / step = 0 ∨ (2 ^ step) ^ (ilog2u v / step) ≤ v := by
  rcases ilog2u_reached v with zero | reached
  · rw [zero, Nat.zero_div]
    exact Or.inl rfl
  · right
    rw [← pow_mul]
    exact (Nat.pow_le_pow_right (by norm_num) (Nat.mul_div_le _ _)).trans reached

theorem lt_pow_place {step : ℕ} (pos : 0 < step) (v : ℕ) :
    v < (2 ^ step) ^ (ilog2u v / step + 1) := by
  rw [← pow_mul]
  exact (lt_pow_ilog2u v).trans_le
    (Nat.pow_le_pow_right (by norm_num) (Nat.lt_mul_div_succ _ pos))

/-! ## The digit loop -/

section Loop

variable {table : ℕ → UInt8} {step k num : ℕ}

/-- The digit of `step` bits after the lowest `step * k`. -/
theorem shift_and_mask (step k num : ℕ) :
    num >>> (step * k) &&& 2 ^ step - 1 = num / (2 ^ step) ^ k % 2 ^ step := by
  rw [Nat.and_two_pow_sub_one_eq_mod, Nat.shiftRight_eq_div_pow, pow_mul]

/-- **The countdown** prints the lowest `k + 1` digits, the highest first. -/
theorem countdown_prints (table : ℕ → UInt8) (step k num : ℕ) :
    Prints (countdown step k fun j => putc (table (num >>> j &&& 2 ^ step - 1))) ()
      ((Numeral.digitsFrom (2 ^ step) k (num % (2 ^ step) ^ (k + 1))).map table) := by
  induction k with
  | zero =>
      have lowest := shift_and_mask step 0 num
      rw [Nat.mul_zero, pow_zero, Nat.div_one] at lowest
      rw [Nat.zero_add, pow_one, Numeral.digitsFrom, List.map_singleton, ← lowest]
      exact Prints.putc _
  | succ k ih =>
      have first : num % (2 ^ step) ^ (k + 1 + 1) / (2 ^ step) ^ (k + 1)
          = num >>> (step * (k + 1)) &&& 2 ^ step - 1 := by
        rw [shift_and_mask, pow_succ _ (k + 1), Nat.mod_mul_right_div_self]
      have rest : num % (2 ^ step) ^ (k + 1 + 1) % (2 ^ step) ^ (k + 1)
          = num % (2 ^ step) ^ (k + 1) :=
        Nat.mod_mod_of_dvd _ (pow_dvd_pow _ (Nat.le_succ _))
      rw [Numeral.digitsFrom, List.map_cons, first, rest]
      exact (Prints.putc _).bind ih

/-- For a number without digits above them these are all its digits. -/
theorem countdown_prints_of_lt (table : ℕ → UInt8) (low : num < (2 ^ step) ^ (k + 1)) :
    Prints (countdown step k fun j => putc (table (num >>> j &&& 2 ^ step - 1))) ()
      ((Numeral.digitsFrom (2 ^ step) k num).map table) := by
  have prints := countdown_prints table step k num
  rwa [Nat.mod_eq_of_lt low] at prints

end Loop

/-! ## The routines -/

section Routine

variable {ten : UInt8} {table : ℕ → UInt8} {m : PrintM ℕ} {size value : ℕ}

/-- `m` prints the numeral of `value` and returns its length. -/
def PrintsNumeral (m : PrintM ℕ) (ten : UInt8) (b value : ℕ) : Prop :=
  ∃ text, Prints m text.length text ∧ Canonical ten b value text

/-- The common part of the first three routines. -/
theorem printsNumeral_of_countdown {step : ℕ} (pos : 0 < step)
    (isTable : IsTable ten (2 ^ step) table) (value : ℕ) :
    PrintsNumeral (countdown step (ilog2u value / step)
        (fun j => putc (table (value >>> j &&& 2 ^ step - 1))) >>= fun _ =>
      pure (ilog2u value / step + 1)) ten (2 ^ step) value := by
  refine ⟨(Numeral.digitsFrom (2 ^ step) (ilog2u value / step) value).map table, ?_,
    canonical_digitsFrom (Nat.one_lt_two_pow pos.ne') isTable (place_reached step value)
      (lt_pow_place pos value)⟩
  have prints := (countdown_prints_of_lt table (lt_pow_place pos value)).bind
    (f := fun _ => pure (ilog2u value / step + 1)) (Prints.pure _)
  rw [List.append_nil] at prints
  rwa [List.length_map, Numeral.length_digitsFrom]

theorem printOct_numeral (env : PrintEnv) (operand : value < 2 ^ (size * bitsPerByte)) :
    PrintsNumeral (printOct env value size) lowerTen 8 value := by
  unfold printOct
  rw [collect_eq, Nat.mod_eq_of_lt operand]
  exact printsNumeral_of_countdown (show 0 < 3 by norm_num) (hexDigit_isTable_oct env) value

theorem printHexWith_numeral (isTable : IsTable ten 16 table)
    (operand : value < 2 ^ (size * bitsPerByte)) :
    PrintsNumeral (printHexWith table value size) ten 16 value := by
  unfold printHexWith
  rw [collect_eq, Nat.mod_eq_of_lt operand]
  exact printsNumeral_of_countdown (show 0 < 4 by norm_num) isTable value

/-- `_print_ptr` prints all digits of the operand, leading zeros included. -/
theorem printPtr_digits (env : PrintEnv) (pos : 0 < size)
    (operand : value < 2 ^ (size * bitsPerByte)) :
    ∃ digits, Prints (printPtr env value size) 18 (Chr.zero :: Chr.x :: digits) ∧
      digits.length = 2 * size ∧ readNumeral lowerTen 16 digits = some value := by
  have turns : 2 * size - 1 + 1 = 2 * size := by omega
  have low : value < (2 ^ 4) ^ (2 * size - 1 + 1) := by
    rw [turns, ← pow_mul, ← Nat.mul_assoc, Nat.mul_comm 8 size]
    exact operand
  refine ⟨(Numeral.digitsFrom 16 (2 * size - 1) value).map (hexDigit env), ?_, ?_,
    readNumeral_digitsFrom (hexDigit_isTable env) low⟩
  · have digits := (countdown_prints_of_lt (hexDigit env) low).bind
      (f := fun _ => pure 18) (Prints.pure _)
    rw [List.append_nil] at digits
    unfold printPtr
    rw [collect_eq, Nat.mod_eq_of_lt operand]
    exact (Prints.putc Chr.zero).bind (f := fun _ => _) ((Prints.putc Chr.x).bind digits)
  · rw [List.length_map, Numeral.length_digitsFrom, turns]

/-- **Octal and hexadecimal output.** `_print_oct`, `_print_hex` and `_print_Hex` print the
canonical numeral of the operand and return its length; `_print_ptr` prints `0x` and two digits
for each byte, which read back to the operand.  Canonical means without leading zeros, and `0` for
zero; the digits of `_print_Hex` are the upper case ones. -/
theorem printRadix_canonical {size value : ℕ} (width : OperandWidth size)
    (operand : value < 2 ^ (size * bitsPerByte)) (env : PrintEnv) :
    PrintsNumeral (printOct env value size) lowerTen 8 value ∧
    PrintsNumeral (printHex env value size) lowerTen 16 value ∧
    PrintsNumeral (printHexUpper env value size) upperTen 16 value ∧
    ∃ bytes digits, Prints (printPtr env value size) bytes (Chr.zero :: Chr.x :: digits) ∧
      digits.length = 2 * size ∧ readNumeral lowerTen 16 digits = some value := by
  have pos : 0 < size := by
    unfold OperandWidth at width
    omega
  exact ⟨printOct_numeral env operand, printHexWith_numeral (hexDigit_isTable env) operand,
    printHexWith_numeral (hexDigitUpper_isTable env) operand, 18,
    printPtr_digits env pos operand⟩

theorem printRadix_canonical_max :
    PrintsNumeral (printOct zeroEnv (2 ^ 64 - 1) 8) lowerTen 8 (2 ^ 64 - 1) ∧
    PrintsNumeral (printHex zeroEnv (2 ^ 64 - 1) 8) lowerTen 16 (2 ^ 64 - 1) ∧
    PrintsNumeral (printHexUpper zeroEnv (2 ^ 64 - 1) 8) upperTen 16 (2 ^ 64 - 1) ∧
    ∃ bytes digits, Prints (printPtr zeroEnv (2 ^ 64 - 1) 8) bytes (Chr.zero :: Chr.x :: digits) ∧
      digits.length = 2 * 8 ∧ readNumeral lowerTen 16 digits = some (2 ^ 64 - 1) :=
  printRadix_canonical (Or.inr (Or.inr (Or.inr rfl))) (by norm_num) zeroEnv

end Routine

end TrashOS
