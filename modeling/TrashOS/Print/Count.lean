import TrashOS.Print.Items
import TrashOS.Vga.Boot
import Mathlib.Tactic.Linarith

/-!
# What a call of `_print` returns

`printk` promises the number of bytes written.  Two things stand against it.
`_print_ptr` adds the length of a 64-bit pointer for pointers of any size, so
`%p` counts eight bytes too many.  And the decimal routines divide with `div64`,
whose loop does not end for the largest 64-bit numbers.

## Main results

* `printConversion_returns`, `printConversion_never` — what one conversion does.
* `runItems_returns`, `runItems_never` — the run lemmas.
* `print_counts_iff` — exactly when a call returns the number of its `VGA_PUTC` calls.
-/

namespace TrashOS

/-! ## Programs that only print -/

/-- `m` returns `a` after `n` calls of `VGA_PUTC` and touches nothing else. -/
def Emits {α : Type} (m : PrintM α) (a : α) (n : ℕ) : Prop :=
  ∀ s : PrintState, ∃ chars, chars.length = n ∧ m s = .ok (a, { s with out := chars ++ s.out })

/-- `m` returns from no state. -/
def Never {α : Type} (m : PrintM α) : Prop := ∀ s : PrintState, ∃ e, m s = .error e

namespace Emits

variable {α β : Type} {m : PrintM α} {f : α → PrintM β} {a : α} {b : β} {n k : ℕ}

theorem pure (a : α) : Emits (Pure.pure a : PrintM α) a 0 := fun _ => ⟨[], rfl, rfl⟩

theorem putc (c : UInt8) : Emits (TrashOS.putc c) () 1 := fun _ => ⟨[c], rfl, rfl⟩

theorem bind (first : Emits m a n) (second : Emits (f a) b k) : Emits (m >>= f) b (n + k) := by
  intro s
  obtain ⟨chars, length, run⟩ := first s
  obtain ⟨chars', length', run'⟩ := second { s with out := chars ++ s.out }
  refine ⟨chars' ++ chars, by rw [List.length_append]; omega, ?_⟩
  rw [Prog.bind_of_ok run, run', List.append_assoc]

/-- Two programs in a row. -/
theorem seq {m : PrintM Unit} {m' : PrintM β} (first : Emits m () n) (second : Emits m' b k) :
    Emits (m >>= fun _ => m') b (n + k) := first.bind second

/-- Printing and then a result. -/
theorem andReturn (first : Emits m a n) (b : β) : Emits (m >>= fun _ => Pure.pure b) b n :=
  first.bind (f := fun _ => Pure.pure b) (Emits.pure b)

/-- A countdown whose body prints one byte. -/
theorem countdown (step k : ℕ) {body : ℕ → PrintM Unit} (one : ∀ j, Emits (body j) () 1) :
    Emits (TrashOS.countdown step k body) () (k + 1) := by
  induction k with
  | zero => exact one 0
  | succ k ih =>
    have both := (one (step * (k + 1))).bind (f := fun _ => TrashOS.countdown step k body) ih
    rw [Nat.add_comm 1] at both
    exact both

end Emits

theorem Never.bind_left {α β : Type} {m : PrintM α} (never : Never m) (f : α → PrintM β) :
    Never (m >>= f) := by
  intro s
  obtain ⟨e, run⟩ := never s
  exact ⟨e, Prog.bind_of_error run⟩

theorem Emits.bind_never {α β : Type} {m : PrintM α} {f : α → PrintM β} {a : α} {n : ℕ}
    (first : Emits m a n) (never : Never (f a)) : Never (m >>= f) := by
  intro s
  obtain ⟨chars, -, run⟩ := first s
  obtain ⟨e, run'⟩ := never { s with out := chars ++ s.out }
  exact ⟨e, (Prog.bind_of_ok run).trans run'⟩

/-! ## The digit loop -/

/-- The running number of the digit loop after the digit of `EXP10[j]`. -/
def nextNum (digit : ℕ → ℕ) (j num q : ℕ) : ℕ :=
  (num + (2 ^ 64 - digit q * EXP10 j % 2 ^ 64)) % 2 ^ 64

/-- Every call of `div64` in the digit loop from `EXP10[j]` downwards returns. -/
def DigitsEnd (digit : ℕ → ℕ) : ℕ → ℕ → Prop
  | 0, num => div64 num (EXP10 0) ≠ none
  | j + 1, num =>
    match div64 num (EXP10 (j + 1)) with
    | none => False
    | some q => DigitsEnd digit j (nextNum digit (j + 1) num q)

theorem printDigits_emits {env : PrintEnv} {digit : ℕ → ℕ} {j num : ℕ}
    (ends : DigitsEnd digit j num) : Emits (printDigits env digit j num) () (j + 1) := by
  induction j generalizing num with
  | zero =>
    unfold printDigits callDiv64
    unfold DigitsEnd at ends
    cases quotient : div64 num (EXP10 0) with
    | none => exact absurd quotient ends
    | some q => exact (Emits.pure q).bind (Emits.putc _)
  | succ j ih =>
    unfold printDigits callDiv64
    unfold DigitsEnd at ends
    cases quotient : div64 num (EXP10 (j + 1)) with
    | none =>
      rw [quotient] at ends
      exact ends.elim
    | some q =>
      rw [quotient] at ends
      have rest := (Emits.pure q).bind
        (f := fun q => TrashOS.putc (hexDigit env (digit q)) >>= fun _ =>
          printDigits env digit j (nextNum digit (j + 1) num q))
        ((Emits.putc _).bind (ih ends))
      have total : 0 + (1 + (j + 1)) = j + 1 + 1 := by omega
      rw [total] at rest
      exact rest

theorem printDigits_never {env : PrintEnv} {digit : ℕ → ℕ} {j num : ℕ}
    (stuck : ¬ DigitsEnd digit j num) : Never (printDigits env digit j num) := by
  have stop : Never (Prog.stop Stop.fuel : PrintM ℕ) := fun _ => ⟨_, rfl⟩
  induction j generalizing num with
  | zero =>
    unfold printDigits callDiv64
    unfold DigitsEnd at stuck
    rw [not_not.mp stuck]
    exact stop.bind_left _
  | succ j ih =>
    unfold printDigits callDiv64
    unfold DigitsEnd at stuck
    cases quotient : div64 num (EXP10 (j + 1)) with
    | none => exact stop.bind_left _
    | some q =>
      rw [quotient] at stuck
      exact (Emits.pure q).bind_never ((Emits.putc _).bind_never (ih stuck))

/-- A quotient of one digit. -/
theorem div64_digit {j num : ℕ} (hj : j < 19) (below : num < 10 ^ (j + 1)) :
    div64 num (EXP10 j) = some (num / 10 ^ j) ∧ num / 10 ^ j < 10 := by
  have bound : 10 ^ (j + 1) < 2 ^ 64 :=
    lt_of_le_of_lt (Nat.pow_le_pow_right (by norm_num) (show j + 1 ≤ 19 by omega)) (by norm_num)
  have ten : num / 10 ^ j < 10 := by
    rw [Nat.div_lt_iff_lt_mul (by positivity), ← pow_succ']
    exact below
  have fits : 10 ^ j * (num / 10 ^ j + 1) < 2 ^ 64 := by
    refine lt_of_le_of_lt (Nat.mul_le_mul_left (10 ^ j) (show num / 10 ^ j + 1 ≤ 10 by omega)) ?_
    rw [← pow_succ]
    exact bound
  exact ⟨(isDiv64_of_lt (by positivity) fits).div64_eq, ten⟩

/-- Numbers below `EXP10[19]` are printed digit by digit. -/
theorem digitsEnd_of_lt {digit : ℕ → ℕ} (small : ∀ q < 10, digit q = q) {j num : ℕ} (hj : j < 19)
    (below : num < 10 ^ (j + 1)) : DigitsEnd digit j num := by
  obtain ⟨quotient, ten⟩ := div64_digit hj below
  induction j generalizing num with
  | zero =>
    unfold DigitsEnd
    rw [quotient]
    exact Option.some_ne_none _
  | succ j ih =>
    unfold DigitsEnd
    rw [quotient]
    have word : num / 10 ^ (j + 1) * 10 ^ (j + 1) ≤ num := Nat.div_mul_le_self _ _
    have split := Nat.div_add_mod' num (10 ^ (j + 1))
    have bound : 10 ^ (j + 1 + 1) < 2 ^ 64 :=
      lt_of_le_of_lt (Nat.pow_le_pow_right (by norm_num) (show j + 1 + 1 ≤ 19 by omega))
        (by norm_num)
    have next : nextNum digit (j + 1) num (num / 10 ^ (j + 1)) = num % 10 ^ (j + 1) := by
      unfold nextNum EXP10
      rw [small _ ten, Nat.mod_eq_of_lt (show num / 10 ^ (j + 1) * 10 ^ (j + 1) < 2 ^ 64 by omega)]
      omega
    have rest : num % 10 ^ (j + 1) < 10 ^ (j + 1) := Nat.mod_lt _ (by positivity)
    obtain ⟨quotient', ten'⟩ := div64_digit (show j < 19 by omega) rest
    dsimp only
    rw [next]
    exact ih (by omega) rest quotient' ten'

/-- From `2 ^ 64 - 2 ^ 19` on the first division never ends. -/
theorem not_digitsEnd_of_le {digit : ℕ → ℕ} {num : ℕ} (large : 2 ^ 64 - 2 ^ 19 ≤ num) :
    ¬ DigitsEnd digit 19 num := by
  have never : div64 num (EXP10 19) = none :=
    div64_eq_none fun r => (mul_pow_mod_le 19 r (by norm_num)).trans large
  unfold DigitsEnd
  rw [never]
  exact id

/-- With 64-bit quotients the running number only falls, so the loop ends below that bound. -/
theorem digitsEnd_id {j num : ℕ} (hj : j ≤ 19) (below : num < 2 ^ 64 - 2 ^ 19) :
    DigitsEnd id j num := by
  have quotient : ∀ j ≤ 19, ∀ num < 2 ^ 64 - 2 ^ 19, ∃ q, IsDiv64 num (EXP10 j) q := by
    intro j hj num below
    obtain ⟨r, hr⟩ := exists_mul_pow_mod_eq j (by omega)
    have step : 2 ^ j ≤ 2 ^ 19 := Nat.pow_le_pow_right (by norm_num) hj
    exact exists_isDiv64 (r := r) (by unfold EXP10; omega)
  induction j generalizing num with
  | zero =>
    obtain ⟨q, isDiv⟩ := quotient 0 hj num below
    unfold DigitsEnd
    rw [isDiv.div64_eq]
    exact Option.some_ne_none _
  | succ j ih =>
    obtain ⟨q, isDiv⟩ := quotient (j + 1) hj num below
    unfold DigitsEnd
    rw [isDiv.div64_eq]
    have le := isDiv.below q le_rfl
    refine ih (by omega) ?_
    unfold nextNum id
    rw [Nat.mul_comm]
    omega

/-- **Which numbers the signed routine prints.** -/
theorem digitsEnd_id_iff (num : ℕ) : DigitsEnd id (ilog10u num) num ↔ num < 2 ^ 64 - 2 ^ 19 := by
  constructor
  · intro ends
    by_contra large
    have large := Nat.not_lt.mp large
    rw [ilog10u_of_large (le_trans (by norm_num) large)] at ends
    exact not_digitsEnd_of_le large ends
  · exact digitsEnd_id (ilog10u_le num)

/-- **Which numbers the unsigned routine prints.**  Between the two bounds the first quotient is
wrong and may not fit into `int digit`; then the following divisions decide. -/
theorem digitsEnd_intDigit (num : ℕ) :
    (num < 10 ^ 19 → DigitsEnd intDigit (ilog10u num) num) ∧
    (2 ^ 64 - 2 ^ 19 ≤ num → ¬ DigitsEnd intDigit (ilog10u num) num) := by
  constructor
  · intro small
    have digit : ilog10u num < 19 := Nat.lt_succ_of_le (ilog10From_lt small)
    refine digitsEnd_of_lt ?_ digit (lt_pow_ilog10From (lt_trans small (by norm_num)))
    intro q hq
    unfold intDigit
    rw [Nat.mod_eq_of_lt (by omega), if_pos (by omega)]
  · intro large
    rw [ilog10u_of_large (le_trans (by norm_num) large)]
    exact not_digitsEnd_of_le large

/-! ## The routines -/

/-- How many bytes a routine prints. -/
def Routine.count (env : PrintEnv) (r : Routine) (object size : ℕ) : ℕ :=
  match r with
  | .signed =>
    (if (signedMagnitude env object size).2 then 1 else 0) +
      (ilog10u (signedMagnitude env object size).1 + 1)
  | .unsigned => ilog10u (collect object size) + 1
  | .oct => ilog2u (collect object size) / 3 + 1
  | .hex | .bigHex => ilog2u (collect object size) / 4 + 1
  | .ptr => 2 + 2 * size

/-- What a routine returns. -/
def Routine.returned (env : PrintEnv) (r : Routine) (object size : ℕ) : ℕ :=
  match r with
  | .ptr => 18
  | r => r.count env object size

/-- The digit loop of a routine ends. -/
def Routine.Ends (env : PrintEnv) (r : Routine) (object size : ℕ) : Prop :=
  match r with
  | .signed =>
    DigitsEnd id (ilog10u (signedMagnitude env object size).1) (signedMagnitude env object size).1
  | .unsigned => DigitsEnd intDigit (ilog10u (collect object size)) (collect object size)
  | _ => True

section Routines

variable {env : PrintEnv} {object size : ℕ}

theorem emits_printHexWith (table : ℕ → UInt8) :
    Emits (printHexWith table object size) (ilog2u (collect object size) / 4 + 1)
      (ilog2u (collect object size) / 4 + 1) :=
  (Emits.countdown 4 _ fun _ => Emits.putc _).andReturn _

theorem Routine.emits {r : Routine} (positive : 0 < size) (ends : r.Ends env object size) :
    Emits (r.code env object size) (r.returned env object size) (r.count env object size) := by
  cases r with
  | signed =>
    unfold Routine.code Routine.returned Routine.count printDecSigned
    have digits : Emits (printDigits env id (ilog10u (signedMagnitude env object size).1)
        (signedMagnitude env object size).1) () _ := printDigits_emits ends
    cases sign : (signedMagnitude env object size).2 with
    | true =>
      simp only [sign, if_true]
      exact (Emits.putc Chr.minus).seq (digits.andReturn _)
    | false =>
      simp only [sign, Bool.false_eq_true, if_false, Nat.zero_add]
      exact digits.andReturn _
  | unsigned => exact (printDigits_emits ends).andReturn _
  | oct => exact (Emits.countdown 3 _ fun _ => Emits.putc _).andReturn _
  | hex => exact emits_printHexWith _
  | bigHex => exact emits_printHexWith _
  | ptr =>
    have turns : 2 * size - 1 + 1 = 2 * size := by omega
    have digits := (Emits.countdown 4 (2 * size - 1)
      fun j => Emits.putc (hexDigit env (collect object size >>> j &&& 0xf))).andReturn 18
    rw [turns] at digits
    have all := (Emits.putc Chr.zero).seq ((Emits.putc Chr.x).seq digits)
    rw [← Nat.add_assoc] at all
    exact all

theorem Routine.never {r : Routine} (stuck : ¬ r.Ends env object size) :
    Never (r.code env object size) := by
  cases r with
  | signed =>
    unfold Routine.code printDecSigned
    have digits : Never (printDigits env id (ilog10u (signedMagnitude env object size).1)
        (signedMagnitude env object size).1) := printDigits_never stuck
    cases sign : (signedMagnitude env object size).2 with
    | true =>
      simp only [sign, if_true]
      exact (Emits.putc Chr.minus).bind_never (digits.bind_left _)
    | false =>
      simp only [sign, Bool.false_eq_true, if_false]
      exact digits.bind_left _
  | unsigned => exact (printDigits_never stuck).bind_left _
  | oct => exact absurd trivial stuck
  | hex => exact absurd trivial stuck
  | bigHex => exact absurd trivial stuck
  | ptr => exact absurd trivial stuck

/-- Only the pointer routine can return another number than it prints. -/
theorem Routine.returned_eq {r : Routine} (narrow : r = .ptr → size = 8) :
    r.returned env object size = r.count env object size := by
  cases r with
  | ptr =>
    rw [narrow rfl]
    rfl
  | _ => rfl

theorem emits_printString (text : List UInt8) :
    Emits (printString text) text.length text.length := by
  induction text with
  | nil => exact Emits.pure 0
  | cons c rest ih =>
    have both := (Emits.putc c).seq (ih.bind (f := fun bytes => pure (bytes + 1)) (Emits.pure _))
    rw [Nat.add_zero, Nat.add_comm 1] at both
    exact both

end Routines

/-! ## One conversion -/

/-- The object a conversion prints: the bytes of its member of the union. -/
def Conversion.object (env : PrintEnv) (conv : Conversion) (ap : ℕ) : ℕ :=
  vaValue env conv.type ap % 2 ^ (conv.size * bitsPerByte)

namespace Format

/-- A decimal conversion is given a number whose digit loop ends; other conversions are given
anything. -/
def Ends (env : PrintEnv) (f : Format) (ap : ℕ) : Prop :=
  ¬ f.Missing → ∀ conv, f.conversion = some conv →
    conv.routine.Ends env (conv.object env ap) conv.size

/-- How many bytes a conversion prints. -/
def count (env : PrintEnv) (f : Format) (ap : ℕ) : ℕ :=
  if f.Missing ∨ f = .invalid then 3
  else if f = .escapedPercent then 1
  else match f.conversion with
    | some conv => conv.routine.count env (conv.object env ap) conv.size
    | Option.none => (env.text (vaValue env .string ap)).length

/-- How many bytes a conversion returns beyond those it prints. -/
def excess (f : Format) : ℕ := if f = .ptr then 8 else 0

/-- What a conversion reads. -/
def reads (f : Format) (ap : ℕ) : List VaRead :=
  if f.Missing then []
  else match f.argType with
    | some type => [⟨ap, type⟩]
    | Option.none => []

/-- The sizes of the conversions. -/
theorem conversion_size {f : Format} {conv : Conversion} (is : f.conversion = some conv) :
    0 < conv.size ∧ (conv.routine = .ptr → ¬ f.Missing → conv.size = 8 ∨
      f = .ptr ∧ conv.size = 4) := by
  cases f <;> cases is <;> simp [Missing]

/-- A conversion of a number is neither `%%` nor invalid. -/
theorem conversion_ne {f : Format} {conv : Conversion} (is : f.conversion = some conv) :
    f ≠ .invalid ∧ f ≠ .escapedPercent := by
  constructor <;> rintro rfl <;> cases is

theorem count_of_conversion {env : PrintEnv} {f : Format} {conv : Conversion}
    (is : f.conversion = some conv) (handled : ¬ f.Missing) (ap : ℕ) :
    f.count env ap = conv.routine.count env (conv.object env ap) conv.size := by
  obtain ⟨valid, visible⟩ := conversion_ne is
  unfold count
  rw [if_neg (not_or.mpr ⟨handled, valid⟩), if_neg visible, is]

theorem returned_eq {env : PrintEnv} {f : Format} {conv : Conversion}
    (is : f.conversion = some conv) (handled : ¬ f.Missing) (ap : ℕ) :
    conv.routine.returned env (conv.object env ap) conv.size =
      conv.routine.count env (conv.object env ap) conv.size + f.excess := by
  unfold excess
  by_cases pointer : f = .ptr
  · subst pointer
    cases is
    rfl
  · rw [if_neg pointer, Nat.add_zero]
    refine Routine.returned_eq fun routine => ?_
    rcases (conversion_size is).2 routine handled with wide | ⟨narrow, -⟩
    · exact wide
    · exact absurd narrow pointer

end Format

section Conversions

variable {env : PrintEnv} {f : Format}

theorem emits_question : Emits (putc Chr.question >>= fun _ => putc Chr.question >>= fun _ =>
    putc Chr.question >>= fun _ => (pure 3 : PrintM ℕ)) 3 3 :=
  (Emits.putc _).seq ((Emits.putc _).seq ((Emits.putc _).andReturn 3))

/-- **A conversion whose digits end.** -/
theorem printConversion_returns (final : f.Final) (s : PrintState) (ends : f.Ends env s.ap) :
    ∃ chars, chars.length = f.count env s.ap ∧ printConversion env f s =
      .ok (f.count env s.ap + f.excess,
        ⟨s.ap + f.words, f.reads s.ap ++ s.reads, chars ++ s.out⟩) := by
  by_cases question : f.Missing ∨ f = .invalid
  · obtain ⟨chars, length, run⟩ := emits_question s
    have count : f.count env s.ap = 3 := if_pos question
    have rest : f.excess = 0 ∧ f.words = 0 ∧ f.reads s.ap = [] := by
      rcases question with (rfl | rfl | rfl) | rfl <;> exact ⟨rfl, rfl, rfl⟩
    obtain ⟨excess, words, reads⟩ := rest
    refine ⟨chars, length.trans count.symm, ?_⟩
    unfold printConversion
    rw [if_pos question, count, excess, words, reads]
    exact run
  · have handled : ¬ f.Missing := fun missing => question (Or.inl missing)
    by_cases percent : f = .escapedPercent
    · subst percent
      exact ⟨[Chr.percent], rfl, rfl⟩
    · unfold printConversion
      rw [if_neg question, if_neg percent]
      cases is : f.conversion with
      | some conv =>
        have argType : f.argType = some conv.type := by
          cases f <;> cases is <;> rfl
        have routine := Routine.emits (Format.conversion_size is).1 (ends handled conv is)
        rw [Format.returned_eq is handled, ← Format.count_of_conversion is handled] at routine
        obtain ⟨chars, length, run⟩ := routine
          ⟨s.ap + conv.type.words, ⟨s.ap, conv.type⟩ :: s.reads, s.out⟩
        refine ⟨chars, length, ?_⟩
        unfold Format.words Format.reads
        rw [if_neg handled, if_neg handled, argType]
        exact (Prog.bind_of_ok rfl).trans run
      | none =>
        have string : f = .str := by
          rcases final with some_ | rfl | rfl | rfl
          · rw [is] at some_
            cases some_
          · rfl
          · exact absurd rfl percent
          · exact absurd (Or.inr rfl) question
        subst string
        obtain ⟨chars, length, run⟩ := emits_printString (env.text (vaValue env .string s.ap))
          ⟨s.ap + 1, ⟨s.ap, .string⟩ :: s.reads, s.out⟩
        exact ⟨chars, length, (Prog.bind_of_ok rfl).trans run⟩

/-- **A conversion whose digits do not end.** -/
theorem printConversion_never (s : PrintState) (stuck : ¬ f.Ends env s.ap) :
    ∃ e, printConversion env f s = .error e := by
  unfold Format.Ends at stuck
  push Not at stuck
  obtain ⟨handled, conv, is, stuck⟩ := stuck
  obtain ⟨valid, visible⟩ := Format.conversion_ne is
  unfold printConversion
  rw [if_neg (not_or.mpr ⟨handled, valid⟩), if_neg visible, is]
  obtain ⟨e, run⟩ := Routine.never stuck
    ⟨s.ap + conv.type.words, ⟨s.ap, conv.type⟩ :: s.reads, s.out⟩
  exact ⟨e, (Prog.bind_of_ok rfl).trans run⟩

end Conversions

/-! ## A list of items -/

namespace Item

/-- The conversion is one the parser can return. -/
def Final : Item → Prop
  | .literal _ => True
  | .conversion _ f => f.Final

def Ends (env : PrintEnv) : Item → ℕ → Prop
  | .literal _, _ => True
  | .conversion _ f, ap => f.Ends env ap

def count (env : PrintEnv) : Item → ℕ → ℕ
  | .literal _, _ => 1
  | .conversion _ f, ap => f.count env ap

def excess : Item → ℕ
  | .literal _ => 0
  | .conversion _ f => f.excess

def words : Item → ℕ
  | .literal _ => 0
  | .conversion _ f => f.words

def reads : Item → ℕ → List VaRead
  | .literal _, _ => []
  | .conversion _ f, ap => f.reads ap

end Item

/-- Every conversion of the list gets a number whose digit loop ends, when the first argument word
has the index `ap` and each conversion takes its own words. -/
def ItemsEnd (env : PrintEnv) : List Item → ℕ → Prop
  | [], _ => True
  | item :: rest, ap => item.Ends env ap ∧ ItemsEnd env rest (ap + item.words)

/-- How many bytes the items print. -/
def itemsCount (env : PrintEnv) : List Item → ℕ → ℕ
  | [], _ => 0
  | item :: rest, ap => item.count env ap + itemsCount env rest (ap + item.words)

/-- What is returned beyond that. -/
def itemsExcess (items : List Item) : ℕ := (items.map Item.excess).sum

/-- What the items read, in order. -/
def itemsReads : List Item → ℕ → List VaRead
  | [], _ => []
  | item :: rest, ap => item.reads ap ++ itemsReads rest (ap + item.words)

/-- How many argument words the items take. -/
def itemsWords (items : List Item) : ℕ := (items.map Item.words).sum

theorem scan_final {advance : Format → ℕ} {format : List UInt8} {turns i : ℕ} {pattern : Bool} :
    ∀ item ∈ scan advance format turns i pattern, item.Final := by
  intro item mem
  rcases mem_scan mem with ⟨c, rfl⟩ | ⟨pos, rfl⟩
  · trivial
  · exact parseFormat_final format pos

theorem toSsize_add (b : ℤ) (n : ℕ) : toSsize (toSsize b + n) = toSsize (b + n) :=
  Int.bmod_add_bmod ..

section Items

variable {env : PrintEnv}

theorem Format.reads_reverse (f : Format) (ap : ℕ) : (f.reads ap).reverse = f.reads ap := by
  unfold Format.reads
  split
  · rfl
  · split <;> rfl

theorem printItem_returns {item : Item} (final : item.Final) (s : PrintState)
    (ends : item.Ends env s.ap) :
    ∃ chars, chars.length = item.count env s.ap ∧ printItem env item s =
      .ok (item.count env s.ap + item.excess,
        ⟨s.ap + item.words, (item.reads s.ap).reverse ++ s.reads, chars ++ s.out⟩) := by
  cases item with
  | literal c => exact ⟨[c], rfl, rfl⟩
  | conversion pos f =>
    obtain ⟨chars, length, run⟩ := printConversion_returns final s ends
    refine ⟨chars, length, ?_⟩
    unfold Item.reads
    dsimp only
    rw [Format.reads_reverse]
    exact run

/-- **Run lemma.** Items whose digits end are printed, and the total is that of all counts. -/
theorem runItems_returns {items : List Item} (final : ∀ item ∈ items, item.Final) (b : ℤ)
    (s : PrintState) (ends : ItemsEnd env items s.ap) :
    ∃ chars, chars.length = itemsCount env items s.ap ∧ runItems env items (toSsize b) s =
      .ok (toSsize (b + (itemsCount env items s.ap + itemsExcess items : ℕ)),
        ⟨s.ap + itemsWords items, (itemsReads items s.ap).reverse ++ s.reads,
          chars ++ s.out⟩) := by
  induction items generalizing b s with
  | nil => exact ⟨[], rfl, by simp [runItems, itemsCount, itemsExcess, itemsWords, itemsReads]⟩
  | cons item rest ih =>
    obtain ⟨first, others⟩ := ends
    obtain ⟨chars, length, run⟩ :=
      printItem_returns (final item (List.mem_cons_self ..)) s first
    obtain ⟨chars', length', run'⟩ := ih (fun other mem => final other (List.mem_cons_of_mem _ mem))
      (b + (item.count env s.ap + item.excess : ℕ))
      ⟨s.ap + item.words, (item.reads s.ap).reverse ++ s.reads, chars ++ s.out⟩ others
    dsimp only at length'
    refine ⟨chars' ++ chars, by rw [List.length_append, length, length', itemsCount]; omega, ?_⟩
    unfold runItems
    rw [Prog.bind_of_ok run, toSsize_add, run']
    have total : b + (item.count env s.ap + item.excess : ℕ) +
        (itemsCount env rest (s.ap + item.words) + itemsExcess rest : ℕ) =
        b + (itemsCount env (item :: rest) s.ap + itemsExcess (item :: rest) : ℕ) := by
      unfold itemsExcess
      rw [itemsCount, List.map_cons, List.sum_cons]
      push_cast
      ring
    dsimp only
    rw [total, itemsReads, List.reverse_append]
    unfold itemsWords
    rw [List.map_cons, List.sum_cons, List.append_assoc, List.append_assoc, Nat.add_assoc]

/-- **Run lemma.** With a conversion whose digits do not end the call does not return. -/
theorem runItems_never {items : List Item} (final : ∀ item ∈ items, item.Final) (b : ℤ)
    (s : PrintState) (stuck : ¬ ItemsEnd env items s.ap) :
    ∃ e, runItems env items b s = .error e := by
  induction items generalizing b s with
  | nil => exact absurd trivial stuck
  | cons item rest ih =>
    unfold runItems
    by_cases first : item.Ends env s.ap
    · obtain ⟨chars, -, run⟩ := printItem_returns (final item (List.mem_cons_self ..)) s first
      obtain ⟨e, run'⟩ := ih (fun other mem => final other (List.mem_cons_of_mem _ mem))
        (toSsize (b + (item.count env s.ap + item.excess : ℕ)))
        ⟨s.ap + item.words, (item.reads s.ap).reverse ++ s.reads, chars ++ s.out⟩
        fun others => stuck ⟨first, others⟩
      exact ⟨e, (Prog.bind_of_ok run).trans run'⟩
    · cases item with
      | literal c => exact absurd trivial first
      | conversion pos f =>
        obtain ⟨e, run⟩ := printConversion_never s first
        exact ⟨e, Prog.bind_of_error run⟩

/-- A pointer that is counted wrongly prints ten bytes. -/
theorem excess_le_count (env : PrintEnv) (item : Item) (ap : ℕ) :
    item.excess ≤ item.count env ap := by
  cases item with
  | literal c => exact Nat.zero_le _
  | conversion pos f =>
    unfold Item.excess Format.excess
    dsimp only
    split
    · rename_i pointer
      rw [pointer]
      exact (show 8 ≤ 10 by norm_num)
    · exact Nat.zero_le _

theorem itemsExcess_le (env : PrintEnv) (items : List Item) (ap : ℕ) :
    itemsExcess items ≤ itemsCount env items ap := by
  induction items generalizing ap with
  | nil => exact le_rfl
  | cons item rest ih =>
    have first := excess_le_count env item ap
    have others := ih (ap + item.words)
    unfold itemsExcess at others ⊢
    rw [List.map_cons, List.sum_cons, itemsCount]
    omega

end Items

/-! ## The whole call -/

/-- The calls of `_print` that return how much they wrote. -/
structure PrintCounts (env : PrintEnv) (format : List UInt8) (ap : ℕ) : Prop where
  /-- The digit loops of the decimal conversions end. -/
  ends : ItemsEnd env (executed format) ap
  /-- No pointer of four bytes is printed. -/
  noPointer : ∀ pos, Item.conversion pos .ptr ∉ executed format
  /-- The number of bytes is a value of `ssize_t`. -/
  short : itemsCount env (executed format) ap < 2 ^ 31

theorem itemsExcess_eq_zero_iff (items : List Item) :
    itemsExcess items = 0 ↔ ∀ pos, Item.conversion pos .ptr ∉ items := by
  unfold itemsExcess
  rw [List.sum_eq_zero_iff]
  constructor
  · intro zero pos mem
    have := zero _ (List.mem_map_of_mem mem)
    cases this
  · intro none_ n mem
    obtain ⟨item, member, rfl⟩ := List.mem_map.mp mem
    cases item with
    | literal c => rfl
    | conversion pos f =>
      have other : f ≠ .ptr := by
        rintro rfl
        exact none_ pos member
      exact if_neg other

theorem toSsize_add_eq_iff {n k : ℕ} (le : k ≤ n) :
    toSsize (n + k : ℕ) = n ↔ k = 0 ∧ n < 2 ^ 31 := by
  unfold toSsize
  rw [Int.bmod_def]
  split <;> omega

/-- What a call returns whose digit loops end. -/
theorem print_returns {env : PrintEnv} {format : List UInt8} {s : PrintState}
    (ends : ItemsEnd env (executed format) s.ap) :
    ∃ ap reads chars, chars.length = itemsCount env (executed format) s.ap ∧
      print env format s = .ok (toSsize (itemsCount env (executed format) s.ap +
        itemsExcess (executed format) : ℕ), ⟨ap, reads, chars ++ s.out⟩) := by
  obtain ⟨chars, length, run⟩ := runItems_returns scan_final 0 s ends
  rw [zero_add] at run
  exact ⟨_, _, chars, length, by rw [print_eq_runItems]; exact run⟩

theorem PrintCounts.returns {env : PrintEnv} {format : List UInt8} {s : PrintState}
    (counts : PrintCounts env format s.ap) :
    ∃ n ap reads chars, print env format s = .ok (n, ⟨ap, reads, chars ++ s.out⟩) ∧
      n = (chars.length : ℤ) := by
  obtain ⟨ap, reads, chars, length, run⟩ := print_returns counts.ends
  have counted := (toSsize_add_eq_iff (itemsExcess_le env (executed format) s.ap)).mpr
    ⟨(itemsExcess_eq_zero_iff _).mpr counts.noPointer, counts.short⟩
  exact ⟨_, _, _, chars, run, by rw [counted, length]⟩

/-! ## The numbers of a call -/

/-- A number with a bound: the magnitude of a signed decimal conversion is below
`2 ^ 64 - 2 ^ 19`, and the number of an unsigned one below `limit`. -/
def Routine.Below (env : PrintEnv) (limit : ℕ) (r : Routine) (object size : ℕ) : Prop :=
  match r with
  | .signed => (signedMagnitude env object size).1 < 2 ^ 64 - 2 ^ 19
  | .unsigned => collect object size < limit
  | _ => True

theorem Routine.Below.ends {env : PrintEnv} {r : Routine} {object size : ℕ}
    (below : r.Below env (10 ^ 19) object size) : r.Ends env object size := by
  cases r with
  | signed => exact (digitsEnd_id_iff _).mpr below
  | unsigned => exact (digitsEnd_intDigit _).1 below
  | oct => trivial
  | hex => trivial
  | bigHex => trivial
  | ptr => trivial

theorem Routine.Ends.below {env : PrintEnv} {r : Routine} {object size : ℕ}
    (ends : r.Ends env object size) : r.Below env (2 ^ 64 - 2 ^ 19) object size := by
  cases r with
  | signed => exact (digitsEnd_id_iff _).mp ends
  | unsigned => exact Nat.lt_of_not_le fun large => (digitsEnd_intDigit _).2 large ends
  | oct => trivial
  | hex => trivial
  | bigHex => trivial
  | ptr => trivial

/-- Every conversion of a number that `_print_format` handles gets one with `P`. -/
def ItemsGet (env : PrintEnv) (P : Routine → ℕ → ℕ → Prop) : List Item → ℕ → Prop
  | [], _ => True
  | .literal _ :: rest, ap => ItemsGet env P rest ap
  | .conversion _ f :: rest, ap =>
      (¬ f.Missing → ∀ conv, f.conversion = some conv →
        P conv.routine (conv.object env ap) conv.size) ∧ ItemsGet env P rest (ap + f.words)

theorem ItemsGet.mono {env : PrintEnv} {P Q : Routine → ℕ → ℕ → Prop}
    (weaker : ∀ r object size, P r object size → Q r object size) {items : List Item} {ap : ℕ}
    (get : ItemsGet env P items ap) : ItemsGet env Q items ap := by
  induction items generalizing ap with
  | nil => trivial
  | cons item rest ih =>
    cases item with
    | literal c => exact ih get
    | conversion pos f =>
      exact ⟨fun handled conv is => weaker _ _ _ (get.1 handled conv is), ih get.2⟩

theorem itemsEnd_iff {env : PrintEnv} {items : List Item} {ap : ℕ} :
    ItemsEnd env items ap ↔ ItemsGet env (fun r => r.Ends env) items ap := by
  induction items generalizing ap with
  | nil => exact Iff.rfl
  | cons item rest ih =>
    unfold ItemsEnd
    rw [ih]
    cases item with
    | literal c => exact ⟨fun both => both.2, fun get => ⟨trivial, get⟩⟩
    | conversion pos f => exact Iff.rfl

/-- **When `_print` reports what it wrote.** A call returns, and the value it returns is the number
of its calls of `VGA_PUTC`, exactly when no `%p` is executed, every decimal conversion gets a number
whose digit loop ends, and the number of bytes fits into `ssize_t`.  The digit loops end of signed
conversions with a magnitude below `2 ^ 64 - 2 ^ 19` and no others; of unsigned ones below
`10 ^ 19`, and of none from `2 ^ 64 - 2 ^ 19` on. -/
theorem print_counts_iff (env : PrintEnv) (format : List UInt8) (s : PrintState) :
    ((∃ n ap reads chars, print env format s = .ok (n, ⟨ap, reads, chars ++ s.out⟩) ∧
      n = (chars.length : ℤ)) ↔ PrintCounts env format s.ap) ∧
    (ItemsGet env (Routine.Below env (10 ^ 19)) (executed format) s.ap →
      ItemsEnd env (executed format) s.ap) ∧
    (ItemsEnd env (executed format) s.ap →
      ItemsGet env (Routine.Below env (2 ^ 64 - 2 ^ 19)) (executed format) s.ap) := by
  refine ⟨⟨?_, PrintCounts.returns⟩,
    fun below => itemsEnd_iff.mpr (below.mono fun _ _ _ => Routine.Below.ends),
    fun ends => (itemsEnd_iff.mp ends).mono fun _ _ _ => Routine.Ends.below⟩
  rintro ⟨n, ap, reads, chars, run, counts⟩
  have ends : ItemsEnd env (executed format) s.ap := by
    by_contra stuck
    have final : ∀ item ∈ executed format, item.Final := scan_final
    obtain ⟨e, never⟩ := runItems_never final 0 s stuck
    rw [print_eq_runItems, never] at run
    cases run
  obtain ⟨ap', reads', chars', length, run'⟩ := print_returns ends
  rw [run'] at run
  injection run with same
  injection same with value state
  injection state with _ _ out
  have same : chars = chars' := List.append_cancel_right out.symm
  rw [same, length, ← value] at counts
  obtain ⟨zero, short⟩ := (toSsize_add_eq_iff (itemsExcess_le _ _ _)).mp counts
  exact ⟨ends, (itemsExcess_eq_zero_iff _).mp zero, short⟩

/-- Zero arguments and no string. -/
def zeroEnv : PrintEnv where
  word _ := 0
  text _ := []
  shift63 := 0
  beyond _ := 0

/-- `printk("%p", NULL)` writes ten bytes and returns 18. -/
theorem print_pointer_miscounts :
    ∃ n s, print zeroEnv [Chr.percent, Chr.p] ⟨0, [], []⟩ = .ok (n, s) ∧ n = 18 ∧
      s.out.length = 10 := by
  obtain ⟨n, s, returned, check⟩ := Prog.exists_of_check
    (m := print zeroEnv [Chr.percent, Chr.p]) (s := ⟨0, [], []⟩)
    (fun n s => decide (n = 18 ∧ s.out.length = 10)) (by decide)
  exact ⟨n, s, returned, of_decide_eq_true check⟩

/-! ## On the screen -/

/-- `printk`: `_print` with `VGA_PUTC` as `vga_putc`. -/
def printk (env : PrintEnv) (format : List UInt8) (vga : Vga) : Except Stop (ℤ × Vga) :=
  match print env format ⟨0, [], []⟩ with
  | .ok (n, s) => .ok (n, vgaWrite s.out.reverse vga)
  | .error e => .error e

/-- `init_printk`: `_print` with `VGA_PUTC` as `init_vga_putc`. -/
def initPrintk (env : PrintEnv) (format : List UInt8) (vga : InitVga) :
    Except Stop (ℤ × InitVga) :=
  match print env format ⟨0, [], []⟩ with
  | .ok (n, s) => .ok (n, InitVga.initVgaWrite s.out.reverse vga)
  | .error e => .error e

section Screen

variable {env : PrintEnv} {format : List UInt8} {t : TextLayout.Text UInt8 vgaWidth}

/-- What `printk` returns is how much it added to the text on the screen. -/
theorem printk_displays {color : UInt8} {β : Type} {R : Reading color β} {vga : Vga}
    (counts : PrintCounts env format 0) (displays : Settled R vga t ∨ Pending R vga t) :
    ∃ (data : List UInt8) (vga' : Vga), printk env format vga = .ok (data.length, vga') ∧
      (Settled R vga' (data.foldl (TextLayout.Text.put newline) t) ∨
        Pending R vga' (data.foldl (TextLayout.Text.put newline) t)) := by
  obtain ⟨n, ap, reads, chars, run, rfl⟩ := PrintCounts.returns (s := ⟨0, [], []⟩) counts
  refine ⟨chars.reverse, _, ?_, vgaWrite_displays chars.reverse displays⟩
  unfold printk
  rw [run, List.append_nil, List.length_reverse]

/-- The same of `init_printk` and the boot screen. -/
theorem initPrintk_displays {vga : InitVga} (counts : PrintCounts env format 0)
    (displays : vga.Displays t) :
    ∃ (data : List UInt8) (vga' : InitVga), initPrintk env format vga = .ok (data.length, vga') ∧
      vga'.Displays (data.foldl (TextLayout.Text.put newline) t) := by
  obtain ⟨n, ap, reads, chars, run, rfl⟩ := PrintCounts.returns (s := ⟨0, [], []⟩) counts
  refine ⟨chars.reverse, _, ?_, InitVga.initVgaWrite_displays chars.reverse displays⟩
  unfold initPrintk
  rw [run, List.append_nil, List.length_reverse]

end Screen

end TrashOS
