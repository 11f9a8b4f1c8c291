import TrashOS.Print.Decimal

/-!
# What `_print_dec_signed` prints

The routine tests the sign bit with the mask `1 << (num_size * BITS_PER_BYTE - 1)`,
which is an `int`.  For one and two bytes that is the sign bit; for four it is
negative, and the conversion to 64 bits gives the sign bit and all above, which an
operand of four bytes does not have.  For eight bytes the count is 63, and C says
nothing about the value: `ShiftResult` has the two values compilers give it.

Neither is the sign bit.  `printDecSigned_exact_iff` says for which operands the test
is right all the same, which is when the routine prints the operand: `-` if it is
negative, and then the decimal numeral of its absolute value.
-/

namespace TrashOS

/-! ## The sign test -/

/-- What `1 << 63` is as an `int`. -/
inductive ShiftResult where
  /-- the count is taken modulo 32, so the value is that of `1 << 31` -/
  | modulo32
  /-- nothing is left -/
  | zero
  deriving DecidableEq, Repr

/-- The value, converted to 64 bits. -/
def ShiftResult.mask : ShiftResult → ℕ
  | .modulo32 => 2 ^ 64 - 2 ^ 31
  | .zero => 0

/-- The number whose two's complement of `size` bytes is `value`. -/
def twosComplement (size value : ℕ) : ℤ :=
  if value < 2 ^ (size * bitsPerByte - 1) then value else value - (2 ^ (size * bitsPerByte) : ℕ)

/-- An operand of eight bytes whose sign the test finds. -/
def ShiftResult.TestsSign (result : ShiftResult) (value : ℕ) : Prop :=
  match result with
  | .modulo32 => value < 2 ^ 31 ∨ 2 ^ 63 ≤ value
  | .zero => value < 2 ^ 63

/-- A mask of `w` ones from bit `k` on is met by the numbers from `2 ^ k` on. -/
theorem and_ones_ne_zero {k w n : ℕ} (below : n < 2 ^ (k + w)) :
    n &&& (2 ^ w - 1) <<< k ≠ 0 ↔ 2 ^ k ≤ n := by
  have moved : n &&& (2 ^ w - 1) <<< k = (n >>> k &&& 2 ^ w - 1) <<< k := by
    apply Nat.eq_of_testBit_eq
    intro i
    by_cases low : k ≤ i
    · simp [Nat.testBit_shiftLeft, Nat.testBit_shiftRight, low, Bool.and_comm]
    · simp [Nat.testBit_shiftLeft, low]
  have high : n >>> k < 2 ^ w := by
    rw [Nat.shiftRight_eq_div_pow]
    exact Nat.div_lt_of_lt_mul (by rwa [← pow_add])
  rw [moved, Nat.and_two_pow_sub_one_of_lt_two_pow high, Nat.shiftLeft_eq,
    Nat.shiftRight_eq_div_pow, ne_eq, Nat.mul_eq_zero, not_or,
    Nat.div_eq_zero_iff_lt (Nat.two_pow_pos k), Nat.not_lt]
  exact and_iff_left (Nat.two_pow_pos k).ne'

/-- Sign extension sets the bits above the operand. -/
theorem or_extension {value m : ℕ} (width : m ≤ 64) (operand : value < 2 ^ m) :
    value ||| 2 ^ 64 - 2 ^ m = value + (2 ^ 64 - 2 ^ m) := by
  have whole : 2 ^ 64 = 2 ^ (64 - m) * 2 ^ m := by rw [← pow_add, Nat.sub_add_cancel width]
  have ones : 2 ^ 64 - 2 ^ m = (2 ^ (64 - m) - 1) <<< m := by
    rw [Nat.shiftLeft_eq, Nat.sub_mul, Nat.one_mul, ← whole]
  rw [ones, Nat.lor_comm, ← Nat.shiftLeft_add_eq_or_of_lt operand, Nat.add_comm]

section Operand

variable {env : PrintEnv} {result : ShiftResult} {size value : ℕ}

/-- The test is right for operands of less than eight bytes. -/
theorem signMask_iff (width : OperandWidth size) (narrow : size ≠ 8)
    (operand : value < 2 ^ (size * bitsPerByte)) :
    value &&& signMask env size ≠ 0 ↔ 2 ^ (size * bitsPerByte - 1) ≤ value := by
  rcases width with rfl | rfl | rfl | rfl
  · have mask : signMask env 1 = (2 ^ 1 - 1) <<< 7 := rfl
    rw [mask]
    exact and_ones_ne_zero operand
  · have mask : signMask env 2 = (2 ^ 1 - 1) <<< 15 := rfl
    rw [mask]
    exact and_ones_ne_zero operand
  · have mask : signMask env 4 = (2 ^ 33 - 1) <<< 31 := by simp [signMask]
    rw [mask]
    exact and_ones_ne_zero (lt_trans operand (by norm_num))
  · exact absurd rfl narrow

/-- For eight bytes it is right where `TestsSign` says so, and nowhere else. -/
theorem signMask_iff_of_testsSign (shift : env.shift63 = result.mask) (operand : value < 2 ^ 64) :
    (value &&& signMask env 8 ≠ 0 ↔ 2 ^ 63 ≤ value) ↔ result.TestsSign value := by
  have mask : signMask env 8 = result.mask := shift
  rw [mask]
  cases result with
  | modulo32 =>
      have test : value &&& (2 ^ 33 - 1) <<< 31 ≠ 0 ↔ 2 ^ 31 ≤ value :=
        and_ones_ne_zero (lt_of_lt_of_le operand (by norm_num))
      rw [show ShiftResult.modulo32.mask = (2 ^ 33 - 1) <<< 31 from rfl, test]
      unfold ShiftResult.TestsSign
      omega
  | zero =>
      rw [show value &&& ShiftResult.zero.mask = 0 from Nat.and_zero value]
      unfold ShiftResult.TestsSign
      omega

/-- The sign test of the routine is right. -/
def SignFound (env : PrintEnv) (size value : ℕ) : Prop :=
  value &&& signMask env size ≠ 0 ↔ 2 ^ (size * bitsPerByte - 1) ≤ value

theorem signFound_iff (width : OperandWidth size) (shift : env.shift63 = result.mask)
    (operand : value < 2 ^ (size * bitsPerByte)) :
    SignFound env size value ↔ size ≠ 8 ∨ result.TestsSign value := by
  by_cases wide : size = 8
  · subst wide
    have test : SignFound env 8 value ↔ result.TestsSign value :=
      signMask_iff_of_testsSign shift operand
    exact test.trans ⟨Or.inr, fun right => right.resolve_left fun narrow => narrow rfl⟩
  · exact iff_of_true (signMask_iff width wide operand) (Or.inl wide)

theorem OperandWidth.le {size : ℕ} (width : OperandWidth size) : size * bitsPerByte ≤ 64 := by
  unfold bitsPerByte
  unfold OperandWidth at width
  omega

/-- The high half of the operands. -/
theorem twosComplement_neg (operand : value < 2 ^ (size * bitsPerByte)) :
    twosComplement size value < 0 ↔ 2 ^ (size * bitsPerByte - 1) ≤ value := by
  unfold twosComplement
  split_ifs with low
  · exact iff_of_false (by omega) (Nat.not_le.mpr low)
  · exact iff_of_true (by omega) (Nat.not_lt.mp low)

/-- **The magnitude.**  Where the sign is found, the routine goes on with the absolute
value. -/
theorem signedMagnitude_eq (width : OperandWidth size)
    (operand : value < 2 ^ (size * bitsPerByte)) (found : SignFound env size value) :
    signedMagnitude env value size
      = ((twosComplement size value).natAbs, decide (twosComplement size value < 0)) := by
  have negative := twosComplement_neg operand
  have bits := width.le
  have whole : 2 ^ (size * bitsPerByte) ≤ 2 ^ 64 := Nat.pow_le_pow_right (by norm_num) bits
  have extension : (if size = 8 then 0 else 2 ^ 64 - 2 ^ (size * bitsPerByte))
      = 2 ^ 64 - 2 ^ (size * bitsPerByte) := by
    split_ifs with wide
    · subst wide
      rfl
    · rfl
  unfold signedMagnitude
  simp only [collect_eq, Nat.mod_eq_of_lt operand]
  by_cases high : 2 ^ (size * bitsPerByte - 1) ≤ value
  · rw [if_pos (found.mpr high), extension, or_extension bits operand,
      decide_eq_true (negative.mpr high)]
    unfold twosComplement
    rw [if_neg (Nat.not_lt.mpr high)]
    have positive : 0 < 2 ^ (size * bitsPerByte - 1) := Nat.two_pow_pos _
    congr 1
    omega
  · rw [if_neg (found.not.mpr high), decide_eq_false (negative.not.mpr high)]
    unfold twosComplement
    rw [if_pos (Nat.not_le.mp high), Int.natAbs_natCast]

end Operand

/-! ## The printed text -/

/-- The decimal form of a number: a sign if it is negative, and the numeral of its
absolute value. -/
def signedDecimal (n : ℤ) : List UInt8 :=
  (if n < 0 then [Chr.minus] else []) ++ decimal n.natAbs

/-- `_print_dec_signed` prints the number its operand is the two's complement of,
when `1 << 63` is `result`. -/
def SignedExact (result : ShiftResult) (size value : ℕ) : Prop :=
  ∀ env : PrintEnv, env.shift63 = result.mask → ∀ s : PrintState,
    ∃ bytes, printDecSigned env value size s = .ok (bytes,
      { s with out := (signedDecimal (twosComplement size value)).reverse ++ s.out })

/-- The sign, if there is one. -/
theorem printSign_prints (negative : Bool) :
    Prints (if negative = true then putc Chr.minus else pure () : PrintM Unit) ()
      (if negative = true then [Chr.minus] else []) := by
  cases negative
  · exact Prints.pure ()
  · exact Prints.putc _

section Text

variable {env : PrintEnv} {result : ShiftResult} {size value : ℕ}

/-- A magnitude is at most `2 ^ 63`. -/
theorem natAbs_twosComplement_le (width : OperandWidth size)
    (operand : value < 2 ^ (size * bitsPerByte)) :
    (twosComplement size value).natAbs ≤ 2 ^ 63 := by
  unfold twosComplement
  rcases width with rfl | rfl | rfl | rfl <;> norm_num at operand ⊢ <;> split_ifs <;> omega

/-- The routine prints a sign or none, and then the digits. -/
theorem printDecSigned_eq {num : ℕ} {negative : Bool}
    (magnitude : signedMagnitude env value size = (num, negative)) :
    printDecSigned env value size =
      (if negative = true then putc Chr.minus else pure ()) >>= fun _ =>
        printDigits env id (ilog10u num) num >>= fun _ =>
          pure ((if negative = true then 1 else 0) + (ilog10u num + 1)) := by
  unfold printDecSigned
  rw [magnitude]
  cases negative <;> rfl

/-- **Where the sign is found, the number is printed.** -/
theorem signedExact_of_found (width : OperandWidth size)
    (operand : value < 2 ^ (size * bitsPerByte)) (found : SignFound env size value)
    (s : PrintState) :
    ∃ bytes, printDecSigned env value size s = .ok (bytes,
      { s with out := (signedDecimal (twosComplement size value)).reverse ++ s.out }) := by
  obtain ⟨n, number⟩ : ∃ n, n = twosComplement size value := ⟨_, rfl⟩
  have magnitude := signedMagnitude_eq width operand found
  have bound := natAbs_twosComplement_le width operand
  rw [← number] at magnitude bound ⊢
  have below : n.natAbs < 10 ^ 19 := lt_of_le_of_lt bound (by norm_num)
  have next : n.natAbs < 10 ^ (ilog10u n.natAbs + 1) :=
    lt_pow_ilog10From (lt_trans below (by norm_num))
  have digits : Prints (printDigits env id (ilog10u n.natAbs) n.natAbs) () (decimal n.natAbs) := by
    unfold decimal
    rw [Numeral.numeral_eq_digitsFrom (by norm_num) (ilog10u_reached _) next]
    exact printDigits_prints (fun _ _ => rfl) (Nat.lt_succ_of_le (ilog10From_lt below)) next
  have text : (if decide (n < 0) = true then [Chr.minus] else []) ++ decimal n.natAbs
      = signedDecimal n := by
    simp [signedDecimal]
  have bytes := digits.bind (f := fun _ => pure
    ((if decide (n < 0) = true then 1 else 0) + (ilog10u n.natAbs + 1))) (Prints.pure _)
  have all := (printSign_prints (decide (n < 0))).bind (f := fun _ =>
    printDigits env id (ilog10u n.natAbs) n.natAbs >>= fun _ => pure _) bytes
  rw [List.append_nil, text, ← printDecSigned_eq magnitude] at all
  exact ⟨_, all s⟩

/-- A call of `div64` that returned left the state alone. -/
theorem callDiv64_returned {a b q : ℕ} {s s' : PrintState}
    (returned : callDiv64 a b s = .ok (q, s')) : s' = s := by
  unfold callDiv64 at returned
  cases quotient : div64 a b with
  | none =>
      rw [quotient] at returned
      cases returned
  | some q' =>
      rw [quotient] at returned
      cases returned
      rfl

/-- Whatever the digit loop prints comes from the table, or from what is read past
it. -/
theorem printDigits_chars {digit : ℕ → ℕ} {j num : ℕ} {s s' : PrintState}
    (returned : printDigits env digit j num s = .ok ((), s')) :
    ∃ chars, s'.out = chars ++ s.out ∧ ∀ c ∈ chars, ∃ n, c = hexDigit env n := by
  induction j generalizing num s with
  | zero =>
      obtain ⟨q, t, quotient, final⟩ := Prog.bind_eq_ok.mp returned
      cases callDiv64_returned quotient
      cases final
      exact ⟨[hexDigit env (digit q)], rfl, by simp⟩
  | succ j ih =>
      obtain ⟨q, t, quotient, rest⟩ := Prog.bind_eq_ok.mp returned
      cases callDiv64_returned quotient
      obtain ⟨u, t', first, later⟩ := Prog.bind_eq_ok.mp rest
      cases first
      obtain ⟨chars, out, table⟩ := ih later
      refine ⟨chars ++ [hexDigit env (digit q)], by rw [out, List.append_assoc]; rfl, ?_⟩
      intro c member
      rcases List.mem_append.mp member with old | new
      · exact table c old
      · exact ⟨digit q, List.mem_singleton.mp new⟩

/-- A numeral holds no sign. -/
theorem minus_notMem_decimal (n : ℕ) : Chr.minus ∉ decimal n := by
  intro member
  obtain ⟨d, digit, same⟩ := List.mem_map.mp member
  have ten := Numeral.lt_of_mem_numeral (by norm_num) digit
  interval_cases d <;> exact absurd same (by decide)

/-- The sign is printed if and only if the test finds one. -/
theorem minus_mem_iff {bytes : ℕ} {s s' : PrintState} (blank : ∀ n, hexDigit env n ≠ Chr.minus)
    (operand : value < 2 ^ (size * bitsPerByte)) (fresh : s.out = [])
    (returned : printDecSigned env value size s = .ok (bytes, s')) :
    Chr.minus ∈ s'.out ↔ value &&& signMask env size ≠ 0 := by
  obtain ⟨num, negative, magnitude⟩ : ∃ num negative,
      signedMagnitude env value size = (num, negative) := ⟨_, _, rfl⟩
  have sign : negative = true ↔ value &&& signMask env size ≠ 0 := by
    unfold signedMagnitude at magnitude
    simp only [collect_eq, Nat.mod_eq_of_lt operand] at magnitude
    by_cases test : value &&& signMask env size ≠ 0
    · rw [if_pos test] at magnitude
      cases magnitude
      exact iff_of_true rfl test
    · rw [if_neg test] at magnitude
      cases magnitude
      exact iff_of_false Bool.false_ne_true test
  rw [printDecSigned_eq magnitude] at returned
  obtain ⟨u, t, first, rest⟩ := Prog.bind_eq_ok.mp returned
  obtain ⟨u', t', digits, final⟩ := Prog.bind_eq_ok.mp rest
  cases final
  obtain ⟨chars, out, table⟩ := printDigits_chars digits
  have others : Chr.minus ∉ chars := fun member => by
    obtain ⟨n, same⟩ := table _ member
    exact blank n same.symm
  rw [← sign, out, List.mem_append, or_iff_right others]
  cases negative with
  | true =>
      cases first
      simp
  | false =>
      cases first
      simp [fresh]

/-- No operand is printed whose sign the test misses. -/
theorem not_signedExact_of_missed (operand : value < 2 ^ (size * bitsPerByte))
    (missed : ∀ env, env.shift63 = result.mask → ¬ SignFound env size value) :
    ¬ SignedExact result size value := by
  intro exact_
  let env : PrintEnv := ⟨fun _ => 0, fun _ => [], result.mask, fun _ => 0⟩
  have blank : ∀ n, hexDigit env n ≠ Chr.minus := by
    intro n
    unfold hexDigit
    split_ifs with ten inTable
    · interval_cases n <;> decide
    · interval_cases n <;> decide
    · exact (by decide : (0 : UInt8) ≠ Chr.minus)
  obtain ⟨bytes, run⟩ := exact_ env rfl ⟨0, [], []⟩
  apply missed env rfl
  unfold SignFound
  rw [← minus_mem_iff blank operand rfl run, ← twosComplement_neg operand]
  simp [signedDecimal, minus_notMem_decimal]

end Text

/-! ## The routine -/

/-- **Signed decimal output** is exact for every operand of one, two or four bytes; for an operand
of eight bytes it is if and only if the sign test is right.  `result` is what the compiler makes
of a shift by 63, which C leaves open.  For neither value is the mask the sign bit, so the
operands for which the routine is right depend on it. -/
theorem printDecSigned_exact_iff {size value : ℕ} (width : OperandWidth size)
    (operand : value < 2 ^ (size * bitsPerByte)) (result : ShiftResult) :
    SignedExact result size value ↔ size ≠ 8 ∨ result.TestsSign value := by
  constructor
  · intro exact_
    by_contra wrong
    refine not_signedExact_of_missed operand (fun env shift found => ?_) exact_
    exact wrong ((signFound_iff width shift operand).mp found)
  · intro right env shift s
    exact signedExact_of_found width operand ((signFound_iff width shift operand).mpr right) s

theorem printDecSigned_exact_min : SignedExact .zero 1 0x80 :=
  (printDecSigned_exact_iff (Or.inl rfl) (by decide) .zero).mpr (Or.inl (by decide))

/-- `printk("%ld", 0x80000000)` prints a sign, or `printk("%ld", -1)` prints none. -/
theorem printDecSigned_misses_sign :
    ¬ SignedExact .modulo32 8 (2 ^ 31) ∧ ¬ SignedExact .zero 8 (2 ^ 64 - 1) := by
  constructor
  · refine not_signedExact_of_missed (by norm_num) fun env shift found => ?_
    rcases (signMask_iff_of_testsSign shift (by norm_num)).mp found with low | high
    · exact lt_irrefl _ low
    · exact absurd high (by norm_num)
  · refine not_signedExact_of_missed (by norm_num) fun env shift found => ?_
    have low : 2 ^ 64 - 1 < 2 ^ 63 := (signMask_iff_of_testsSign shift (by norm_num)).mp found
    exact absurd low (by norm_num)

end TrashOS
