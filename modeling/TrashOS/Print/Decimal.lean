import TrashOS.Lib.Multiples
import TrashOS.Lib.Numeral
import TrashOS.Print.Count

/-!
# What `_print_dec_unsigned` prints

Below `EXP10[19]` every quotient of the digit loop is a digit, and the routine
prints the decimal numeral of its operand.  From there on the first division goes
wrong: twice `EXP10[19]` does not fit into 64 bits, its product wraps around to a
small number, and `div64` passes over it.  The quotient it does find is one less
than a record of the multiples of `EXP10[19]` modulo `2 ^ 64`.  None of these
leaves the digit `1` after the conversion to `int`, so the numeral is wrong from
its first digit on, or never ends.
-/

namespace TrashOS

/-! ## Collecting the operand -/

/-- The bytes at `num_addr` are put together to the number they are the bytes of. -/
theorem collect_eq (object size : ℕ) : collect object size = object % 2 ^ (size * bitsPerByte) := by
  unfold collect
  refine Loop.upto_invariant (motive := fun k num => num = object % 2 ^ (k * bitsPerByte)) size ?_
    fun k _ num before => ?_
  · rw [Nat.zero_mul, pow_zero, Nat.mod_one]
  · have below : object % 2 ^ (k * bitsPerByte) < 2 ^ (k * bitsPerByte) :=
      Nat.mod_lt _ (Nat.two_pow_pos _)
    rw [before, Nat.lor_comm, ← Nat.shiftLeft_add_eq_or_of_lt below, Nat.shiftLeft_eq,
      Nat.succ_mul, pow_add, Nat.mod_mul]
    ring

/-! ## Programs that print a text -/

/-- `m` returns `a` after it printed `text`, and touches nothing else. -/
def Prints {α : Type} (m : PrintM α) (a : α) (text : List UInt8) : Prop :=
  ∀ s : PrintState, m s = .ok (a, { s with out := text.reverse ++ s.out })

namespace Prints

variable {α β : Type} {m : PrintM α} {f : α → PrintM β} {a : α} {b : β} {text text' : List UInt8}

theorem pure (a : α) : Prints (Pure.pure a : PrintM α) a [] := fun _ => rfl

theorem putc (c : UInt8) : Prints (TrashOS.putc c) () [c] := fun _ => rfl

theorem bind (first : Prints m a text) (second : Prints (f a) b text') :
    Prints (m >>= f) b (text ++ text') := by
  intro s
  rw [Prog.bind_of_ok (first s), second]
  simp

end Prints

/-! ## Decimal digits -/

/-- The character of a digit. -/
def digitByte (d : ℕ) : UInt8 := Chr.zero + d.toUInt8

/-- The canonical decimal numeral. -/
def decimal (n : ℕ) : List UInt8 := (Numeral.numeral 10 n).map digitByte

/-- The index `hex[digit]` of every turn of the digit loop is within the table, and
so is that of `EXP10[j]`. -/
def IndicesInRange (digit : ℕ → ℕ) : ℕ → ℕ → Prop
  | 0, num => ∀ q, div64 num (EXP10 0) = some q → digit q < 16
  | j + 1, num => j + 1 < 20 ∧ ∀ q, div64 num (EXP10 (j + 1)) = some q →
      digit q < 16 ∧ IndicesInRange digit j (nextNum digit (j + 1) num q)

theorem hexDigit_of_lt {env : PrintEnv} {n : ℕ} (ten : n < 10) : hexDigit env n = digitByte n :=
  if_pos ten

section Loop

variable {env : PrintEnv} {digit : ℕ → ℕ} {j num : ℕ}

/-- What is left after a digit. -/
theorem nextNum_digit (small : ∀ q < 10, digit q = q) (exponent : j + 1 < 19)
    (below : num < 10 ^ (j + 1 + 1)) :
    nextNum digit (j + 1) num (num / 10 ^ (j + 1)) = num % 10 ^ (j + 1) := by
  obtain ⟨-, ten⟩ := div64_digit exponent below
  have bound : 10 ^ (j + 1 + 1) < 2 ^ 64 :=
    lt_of_le_of_lt (Nat.pow_le_pow_right (by norm_num) (show j + 1 + 1 ≤ 19 by omega)) (by norm_num)
  have word : num / 10 ^ (j + 1) * 10 ^ (j + 1) ≤ num := Nat.div_mul_le_self _ _
  have split := Nat.div_add_mod' num (10 ^ (j + 1))
  unfold nextNum EXP10
  rw [small _ ten, Nat.mod_eq_of_lt (show num / 10 ^ (j + 1) * 10 ^ (j + 1) < 2 ^ 64 by omega)]
  omega

/-- **The digit loop** below `EXP10[19]`. -/
theorem printDigits_prints (small : ∀ q < 10, digit q = q) (exponent : j < 19)
    (below : num < 10 ^ (j + 1)) :
    Prints (printDigits env digit j num) () ((Numeral.digitsFrom 10 j num).map digitByte) := by
  obtain ⟨quotient, ten⟩ := div64_digit exponent below
  induction j generalizing num with
  | zero =>
      rw [pow_zero, Nat.div_one] at quotient ten
      unfold printDigits callDiv64
      rw [quotient]
      have one := (Prints.pure num).bind (f := fun q => putc (hexDigit env (digit q)))
        (Prints.putc _)
      rw [small _ ten, hexDigit_of_lt ten] at one
      exact one
  | succ j ih =>
      have rest : num % 10 ^ (j + 1) < 10 ^ (j + 1) := Nat.mod_lt _ (by positivity)
      obtain ⟨quotient', ten'⟩ := div64_digit (show j < 19 by omega) rest
      have later := ih (by omega) rest quotient' ten'
      rw [← nextNum_digit small exponent below] at later
      unfold printDigits callDiv64
      rw [quotient]
      have all := (Prints.pure (num / 10 ^ (j + 1))).bind
        (f := fun q => putc (hexDigit env (digit q)) >>= fun _ =>
          printDigits env digit j (nextNum digit (j + 1) num q))
        ((Prints.putc _).bind later)
      rw [small _ ten, hexDigit_of_lt ten, nextNum_digit small exponent below] at all
      exact all

/-- Its indices. -/
theorem indicesInRange_of_lt (small : ∀ q < 10, digit q = q) (exponent : j < 19)
    (below : num < 10 ^ (j + 1)) : IndicesInRange digit j num := by
  obtain ⟨quotient, ten⟩ := div64_digit exponent below
  induction j generalizing num with
  | zero =>
      intro q returned
      rw [quotient] at returned
      cases returned
      rw [small _ ten]
      omega
  | succ j ih =>
      refine ⟨by omega, fun q returned => ?_⟩
      rw [quotient] at returned
      cases returned
      have rest : num % 10 ^ (j + 1) < 10 ^ (j + 1) := Nat.mod_lt _ (by positivity)
      obtain ⟨quotient', ten'⟩ := div64_digit (show j < 19 by omega) rest
      rw [nextNum_digit small exponent below, small _ ten]
      exact ⟨by omega, ih (by omega) rest quotient' ten'⟩

end Loop

/-! ## Numbers from `EXP10[19]` on -/

/-- The one number of an exact first digit. -/
theorem ne_one_of_isDiv64 {num q : ℕ} (large : 10 ^ 19 ≤ num)
    (quotient : IsDiv64 num (EXP10 19) q) :
    intDigit q ≠ 1 := by
  obtain ⟨word, below, above⟩ := quotient
  have record : Multiples.Record (10 ^ 19) (2 ^ 64) (q + 1) := fun s earlier =>
    (below s (Nat.lt_succ_iff.mp earlier)).trans_lt above
  have later : 1 < q + 1 := by
    by_contra first
    have zero : q + 1 = 1 := by omega
    rw [zero] at above
    exact absurd (above.trans_le (Nat.mod_le _ _)) (Nat.not_lt.mpr large)
  have tested := Multiples.holds_of_record (by norm_num)
    (fun r => mul_pow_mod_le 19 r (by norm_num)) (Multiples.Extremes.one (10 ^ 19) (2 ^ 64))
    (show Multiples.recordsHold (10 ^ 19) (2 ^ 64) (2 ^ 64 - 2 ^ 19) (fun r => r % 2 ^ 32 != 2)
      150 1 1 = true by decide +kernel) later record
  intro one
  unfold intDigit at one
  split_ifs at one with positive
  · have remainder : (q + 1) % 2 ^ 32 = 2 := by omega
    rw [remainder] at tested
    exact absurd tested (by decide)
  · omega

/-- The first digit of the numeral. -/
theorem head_decimal {num : ℕ} (large : 10 ^ 19 ≤ num) (word : num < 2 ^ 64) :
    (decimal num).head? = some (digitByte 1) := by
  have digits := Numeral.numeral_eq_digitsFrom (b := 10) (by norm_num) (Or.inr large)
    (lt_trans word (by norm_num))
  have one : num / 10 ^ 19 = 1 := by omega
  unfold decimal
  rw [digits, Numeral.digitsFrom, List.map_cons, List.head?_cons, one]

/-- Only the index `1` of the table holds the character `1`. -/
theorem eq_one_of_hexDigit {env : PrintEnv} {n : ℕ} (inTable : n < 16)
    (same : hexDigit env n = digitByte 1) : n = 1 := by
  unfold hexDigit digitByte at same
  by_cases ten : n < 10
  · rw [if_pos ten] at same
    interval_cases n <;> first | rfl | exact absurd same (by decide)
  · rw [if_neg ten, if_pos inTable] at same
    have high : 10 ≤ n := by omega
    interval_cases n <;> exact absurd same (by decide)

/-- If the digit loop starts at `EXP10[19]`, it does not print the numeral, or it
leaves the table. -/
theorem not_prints_of_large {env : PrintEnv} {num : ℕ} {s s' : PrintState} (large : 10 ^ 19 ≤ num)
    (word : num < 2 ^ 64) (returned : printDigits env intDigit 19 num s = .ok ((), s'))
    (inRange : IndicesInRange intDigit 19 num) : s'.out ≠ (decimal num).reverse ++ s.out := by
  by_cases ends : DigitsEnd intDigit 19 num
  · unfold DigitsEnd at ends
    cases quotient : div64 num (EXP10 19) with
    | none =>
        rw [quotient] at ends
        exact ends.elim
    | some q =>
        rw [quotient] at ends
        obtain ⟨inTable, -⟩ := inRange.2 q quotient
        unfold printDigits callDiv64 at returned
        rw [quotient] at returned
        -- one character from the first quotient, and then the rest
        have emits : Emits (printDigits env intDigit 18 (nextNum intDigit (18 + 1) num q)) () 19 :=
          printDigits_emits ends
        obtain ⟨chars, -, rest⟩ := emits
          { s with out := hexDigit env (intDigit q) :: s.out }
        have run : (.ok ((), s') : Except Stop (Unit × PrintState)) = _ := returned.symm.trans rest
        cases run
        intro same
        have text : chars ++ [hexDigit env (intDigit q)] = (decimal num).reverse := by
          apply @List.append_cancel_right _ _ s.out
          rw [← same, List.append_assoc]
          rfl
        have first : some (hexDigit env (intDigit q)) = some (digitByte 1) := by
          rw [← head_decimal large word, ← List.reverse_reverse (decimal num), ← text]
          simp
        exact ne_one_of_isDiv64 large (isDiv64_of_eq quotient)
          (eq_one_of_hexDigit inTable (Option.some_inj.mp first))
  · have never : Never (printDigits env intDigit 19 num) := printDigits_never ends
    obtain ⟨e, stopped⟩ := never s
    rw [stopped] at returned
    cases returned

/-! ## The routine -/

/-- `_print_dec_unsigned` prints the decimal numeral of its operand, and indexes
its tables within their bounds. -/
def DecimalExact (size value : ℕ) : Prop :=
  (∀ (env : PrintEnv) (s : PrintState), ∃ bytes, printDecUnsigned env value size s
    = .ok (bytes, { s with out := (decimal value).reverse ++ s.out })) ∧
  IndicesInRange intDigit (ilog10u value) value

/-- The widths an operand can have. -/
def OperandWidth (size : ℕ) : Prop := size = 1 ∨ size = 2 ∨ size = 4 ∨ size = 8

theorem OperandWidth.word {size value : ℕ} (width : OperandWidth size)
    (operand : value < 2 ^ (size * bitsPerByte)) : value < 2 ^ 64 := by
  refine operand.trans_le (Nat.pow_le_pow_right (by norm_num) ?_)
  unfold bitsPerByte
  unfold OperandWidth at width
  omega

theorem ilog10From_reached {k v : ℕ} : ilog10From k v = 0 ∨ 10 ^ ilog10From k v ≤ v := by
  induction k with
  | zero => exact Or.inl rfl
  | succ k ih =>
      unfold ilog10From
      split_ifs with reached
      · exact Or.inr reached
      · exact ih

theorem ilog10u_reached (v : ℕ) : ilog10u v = 0 ∨ 10 ^ ilog10u v ≤ v := ilog10From_reached

/-- The conversion to `int` keeps a digit. -/
theorem intDigit_of_lt {q : ℕ} (ten : q < 10) : intDigit q = q := by
  unfold intDigit
  rw [Nat.mod_eq_of_lt (by omega), if_pos (by omega)]

/-- No operand from `EXP10[19]` on is printed exactly. -/
theorem not_decimalExact_of_large {size value : ℕ} (large : 10 ^ 19 ≤ value)
    (word : value < 2 ^ 64) (operand : value < 2 ^ (size * bitsPerByte)) :
    ¬ DecimalExact size value := by
  rintro ⟨prints, inRange⟩
  let env : PrintEnv := ⟨fun _ => 0, fun _ => [], 0, fun _ => 0⟩
  obtain ⟨bytes, run⟩ := prints env ⟨0, [], []⟩
  unfold printDecUnsigned at run
  rw [collect_eq, Nat.mod_eq_of_lt operand, ilog10u_of_large large] at run
  rw [ilog10u_of_large large] at inRange
  obtain ⟨u, s', digits, final⟩ := Prog.bind_eq_ok.mp run
  cases final
  exact not_prints_of_large large word digits inRange rfl

/-- **Unsigned decimal output** is exact if and only if the operand is below `EXP10[19]`.  From
there on the first product of `div64` wraps around, so the first digit is wrong, is no digit, or
is never found.  Operands of one, two and four bytes are below that bound. -/
theorem printDecUnsigned_exact_iff {size value : ℕ} (width : OperandWidth size)
    (operand : value < 2 ^ (size * bitsPerByte)) : DecimalExact size value ↔ value < 10 ^ 19 := by
  constructor
  · intro exact_
    by_contra large
    exact not_decimalExact_of_large (Nat.not_lt.mp large) (width.word operand) operand exact_
  · intro below
    have exponent : ilog10u value < 19 := Nat.lt_succ_of_le (ilog10From_lt below)
    have next : value < 10 ^ (ilog10u value + 1) :=
      lt_pow_ilog10From (lt_trans below (by norm_num))
    refine ⟨fun env s => ⟨ilog10u value + 1, ?_⟩,
      indicesInRange_of_lt (fun _ => intDigit_of_lt) exponent next⟩
    have prints : Prints (printDigits env intDigit (ilog10u value) value) ()
        ((Numeral.digitsFrom 10 (ilog10u value) value).map digitByte) :=
      printDigits_prints (fun _ => intDigit_of_lt) exponent next
    have digits := prints s
    rw [← Numeral.numeral_eq_digitsFrom (by norm_num) (ilog10u_reached value) next] at digits
    unfold printDecUnsigned
    rw [collect_eq, Nat.mod_eq_of_lt operand, Prog.bind_of_ok digits]
    rfl

theorem printDecUnsigned_exact_sample : DecimalExact 4 4294967295 :=
  (printDecUnsigned_exact_iff (Or.inr (Or.inr (Or.inl rfl))) (by decide)).mpr (by norm_num)

/-- `printk("%lu", 10000000000000000000)` does not print that number. -/
theorem printDecUnsigned_misprints : ¬ DecimalExact 8 (10 ^ 19) :=
  not_decimalExact_of_large le_rfl (by norm_num) (by norm_num)

end TrashOS
