import TrashOS.Print.Count

/-!
# The executor follows the parser

`_print_format` has a case for each conversion `_parse_format` can return, but
for the three of `Format.Missing`.  There it prints `???`, reads no argument and
leaves the cursor on the first modifier letter.

## Main results

* `agreesAt_iff` — exactly when one conversion is consumed as it was parsed.
* `print_agrees_iff` — the same for a whole format, where every later conversion
  reads its own argument.
-/

namespace TrashOS

/-- What the default branch prints. -/
def questionMarks : List UInt8 := [Chr.question, Chr.question, Chr.question]

namespace Format

/-- The argument a conversion reads by its type. -/
def ownReads (f : Format) (ap : ℕ) : List VaRead :=
  match f.argType with
  | some type => [⟨ap, type⟩]
  | Option.none => []

/-- The argument words a conversion takes by its type. -/
def ownWords (f : Format) : ℕ := (f.argType.map ArgType.words).getD 0

variable {f : Format}

theorem reads_eq (handled : ¬ f.Missing) (ap : ℕ) : f.reads ap = f.ownReads ap := if_neg handled

theorem words_eq (handled : ¬ f.Missing) : f.words = f.ownWords := if_neg handled

theorem advance_eq (handled : ¬ f.Missing) : f.advance = f.modifiers := if_neg handled

/-- The executor stays where it is on a conversion it does not know. -/
theorem advance_lt (missing : f.Missing) : f.advance < f.modifiers := by
  rcases missing with rfl | rfl | rfl <;> decide

/-- A conversion that is not `%%` has an argument. -/
theorem argType_isSome (final : f.Final) (valid : f ≠ .invalid) (visible : f ≠ .escapedPercent) :
    ∃ type, f.argType = some type := by
  rcases final with number | rfl | rfl | rfl
  · obtain ⟨conv, is⟩ := Option.isSome_iff_exists.mp number
    exact ⟨conv.type, by cases f <;> cases is <;> rfl⟩
  · exact ⟨.string, rfl⟩
  · exact absurd rfl visible
  · exact absurd rfl valid

end Format

/-- At position `i`, with `s.ap` the next argument word, `_print_format` consumes exactly what
`_parse_format` finds there.

If that is a conversion, the cursor stops on its last byte, exactly its argument is read, and what
is printed is not the mark of an invalid conversion.  If there is none, the mark is printed and
nothing is read. -/
def AgreesAt (env : PrintEnv) (format : List UInt8) (i : ℕ) (s : PrintState) : Prop :=
  ∃ bytes i' s', printFormat env format i s = .ok ((bytes, i'), s') ∧
    if parseFormat format i = .invalid then
      s'.out = questionMarks ++ s.out ∧ s'.reads = s.reads ∧ s'.ap = s.ap
    else
      i' + 1 = i + parseLength format i ∧
      s'.reads = (parseFormat format i).ownReads s.ap ++ s.reads ∧
      s'.ap = s.ap + (parseFormat format i).ownWords ∧
      ¬ (s'.reads = s.reads ∧ s'.out = questionMarks ++ s.out)

section Position

variable {env : PrintEnv} {format : List UInt8} {i : ℕ} {s : PrintState}

theorem printFormat_run {n : ℕ} {s' : PrintState}
    (run : printConversion env (parseFormat format i) s = .ok (n, s')) :
    printFormat env format i s = .ok ((n, i + (parseFormat format i).advance), s') := by
  rw [printFormat_eq]
  exact Prog.bind_of_ok run

/-- **One conversion.** -/
theorem agreesAt_iff : AgreesAt env format i s ↔
    ¬ (parseFormat format i).Missing ∧ (parseFormat format i).Ends env s.ap := by
  have final := parseFormat_final format i
  have length : parseFormat format i ≠ .invalid →
      parseLength format i = (parseFormat format i).modifiers + 1 := parseLength_eq
  constructor
  · rintro ⟨bytes, i', s', run, agrees⟩
    have ends : (parseFormat format i).Ends env s.ap := by
      by_contra stuck
      obtain ⟨e, never⟩ := printConversion_never s stuck
      rw [printFormat_eq, Prog.bind_of_error never] at run
      cases run
    refine ⟨fun missing => ?_, ends⟩
    obtain ⟨chars, -, returned⟩ := printConversion_returns final s ends
    rw [printFormat_run returned] at run
    injection run with same
    injection same with pair _
    injection pair with _ cursor
    have valid : parseFormat format i ≠ .invalid := by
      rcases missing with is | is | is <;> rw [is] <;> decide
    rw [if_neg valid] at agrees
    have short := Format.advance_lt missing
    have last := agrees.1
    rw [length valid] at last
    omega
  · rintro ⟨handled, ends⟩
    by_cases invalid : parseFormat format i = .invalid
    · have run : printConversion env (parseFormat format i) s =
          .ok (3, { s with out := questionMarks ++ s.out }) := by
        rw [invalid]
        rfl
      refine ⟨_, _, _, printFormat_run run, ?_⟩
      rw [if_pos invalid]
      exact ⟨rfl, rfl, rfl⟩
    · obtain ⟨chars, count, run⟩ := printConversion_returns final s ends
      refine ⟨_, _, _, printFormat_run run, ?_⟩
      rw [if_neg invalid]
      dsimp only
      rw [Format.reads_eq handled, Format.words_eq handled, Format.advance_eq handled,
        length invalid]
      refine ⟨by omega, rfl, rfl, ?_⟩
      rintro ⟨noReads, marks⟩
      by_cases visible : parseFormat format i = .escapedPercent
      · have three : chars = questionMarks := List.append_cancel_right marks
        rw [three, visible] at count
        cases count
      · obtain ⟨type, is⟩ := Format.argType_isSome final invalid visible
        unfold Format.ownReads at noReads
        rw [is] at noReads
        have longer := congrArg List.length noReads
        rw [List.length_append, List.length_singleton] at longer
        omega

end Position

/-! ## The whole format -/

/-- The arguments of the parsed items, in order. -/
def itemsOwnReads : List Item → ℕ → List VaRead
  | [], _ => []
  | .literal _ :: rest, ap => itemsOwnReads rest ap
  | .conversion _ f :: rest, ap => f.ownReads ap ++ itemsOwnReads rest (ap + f.ownWords)

/-- At each conversion of the list executor and parser agree. -/
def EachAgrees (env : PrintEnv) (format : List UInt8) : List Item → ℕ → Prop
  | [], _ => True
  | .literal _ :: rest, ap => EachAgrees env format rest ap
  | .conversion pos f :: rest, ap =>
    AgreesAt env format pos ⟨ap, [], []⟩ ∧ EachAgrees env format rest (ap + f.ownWords)

/-- Each conversion of the list has a case in the executor and a number it can print. -/
def Executable (env : PrintEnv) : List Item → ℕ → Prop
  | [], _ => True
  | .literal _ :: rest, ap => Executable env rest ap
  | .conversion _ f :: rest, ap =>
    (¬ f.Missing ∧ f.Ends env ap) ∧ Executable env rest (ap + f.ownWords)

/-- The item is what the parser finds at its position. -/
def Item.Parsed (format : List UInt8) : Item → Prop
  | .literal _ => True
  | .conversion pos f => f = parseFormat format pos

theorem scan_parsed {advance : Format → ℕ} {format : List UInt8} {turns i : ℕ} {pattern : Bool} :
    ∀ item ∈ scan advance format turns i pattern, item.Parsed format := by
  intro item mem
  rcases mem_scan mem with ⟨c, rfl⟩ | ⟨pos, rfl⟩
  · trivial
  · rfl

section Run

variable {env : PrintEnv} {format : List UInt8}

theorem eachAgrees_iff {items : List Item} (parsed : ∀ item ∈ items, item.Parsed format) (ap : ℕ) :
    EachAgrees env format items ap ↔ Executable env items ap := by
  induction items generalizing ap with
  | nil => exact Iff.rfl
  | cons item rest ih =>
    have others := ih fun other mem => parsed other (List.mem_cons_of_mem _ mem)
    cases item with
    | literal c => exact others ap
    | conversion pos f =>
      have is : f = parseFormat format pos := parsed _ (List.mem_cons_self ..)
      subst is
      exact and_congr agreesAt_iff (others _)

theorem executable_handled {items : List Item} {ap : ℕ} (executable : Executable env items ap) :
    ∀ pos f, Item.conversion pos f ∈ items → ¬ f.Missing := by
  induction items generalizing ap with
  | nil => simp
  | cons item rest ih =>
    intro pos f mem
    cases item with
    | literal c =>
      rcases List.mem_cons.mp mem with same | mem
      · cases same
      · exact ih executable pos f mem
    | conversion pos' f' =>
      rcases List.mem_cons.mp mem with same | mem
      · cases same
        exact executable.1.1
      · exact ih executable.2 pos f mem

/-- The executor cuts a format as the parser does when it has a case for every conversion. -/
theorem scan_eq {turns i : ℕ} {pattern : Bool}
    (handled : ∀ pos f, Item.conversion pos f ∈ scan Format.modifiers format turns i pattern →
      ¬ f.Missing) :
    scan Format.advance format turns i pattern = scan Format.modifiers format turns i pattern := by
  induction turns generalizing i pattern with
  | zero => rfl
  | succ turns ih =>
    rw [scan_succ] at handled ⊢
    rw [scan_succ]
    cases here : format[i]? with
    | none => rfl
    | some c =>
      simp only [here] at handled
      dsimp only
      by_cases conversion : pattern = true
      · rw [if_pos conversion] at handled ⊢
        rw [if_pos conversion, Format.advance_eq (handled _ _ (List.mem_cons_self ..))]
        congr 1
        exact ih fun pos f mem => handled pos f (List.mem_cons_of_mem _ mem)
      · rw [if_neg conversion] at handled ⊢
        rw [if_neg conversion]
        split
        · rename_i percent
          rw [if_pos percent] at handled
          exact ih handled
        · rename_i literal
          rw [if_neg literal] at handled
          congr 1
          exact ih fun pos f mem => handled pos f (List.mem_cons_of_mem _ mem)

theorem executable_itemsEnd {items : List Item} {ap : ℕ} (executable : Executable env items ap) :
    ItemsEnd env items ap ∧ itemsReads items ap = itemsOwnReads items ap := by
  induction items generalizing ap with
  | nil => exact ⟨trivial, rfl⟩
  | cons item rest ih =>
    cases item with
    | literal c =>
      obtain ⟨ends, reads⟩ := ih (show Executable env rest ap from executable)
      exact ⟨⟨trivial, ends⟩, reads⟩
    | conversion pos f =>
      obtain ⟨⟨handled, first⟩, others⟩ := executable
      rw [← Format.words_eq handled] at others
      obtain ⟨ends, reads⟩ := ih others
      refine ⟨⟨first, ends⟩, ?_⟩
      unfold itemsReads itemsOwnReads Item.reads
      dsimp only
      rw [Format.reads_eq handled, ← Format.words_eq handled, ← reads]
      rfl

/-- **Parser and executor agree** at a position exactly when the conversion there has a case in
`_print_format` and, if it is decimal, a number whose digit loop ends.  Over a whole format, all
its conversions are consumed as parsed and each reads its own argument exactly when that holds of
every one of them.  The parser is run at the position of the conversion and the executor on the
same format, so the two tables of the source are compared as they stand. -/
theorem print_agrees_iff (env : PrintEnv) (format : List UInt8) (s : PrintState) :
    (∀ i t, AgreesAt env format i t ↔
      ¬ (parseFormat format i).Missing ∧ (parseFormat format i).Ends env t.ap) ∧
    ((EachAgrees env format (parsed format) s.ap ∧
      ∃ n ap chars, print env format s = .ok (n,
        ⟨ap, (itemsOwnReads (parsed format) s.ap).reverse ++ s.reads, chars ++ s.out⟩)) ↔
      Executable env (parsed format) s.ap) := by
  have cut : ∀ item ∈ parsed format, item.Parsed format := scan_parsed
  refine ⟨fun i t => agreesAt_iff, fun agrees => (eachAgrees_iff cut _).mp agrees.1, ?_⟩
  intro executable
  refine ⟨(eachAgrees_iff cut _).mpr executable, ?_⟩
  have same : executed format = parsed format := scan_eq (executable_handled executable)
  obtain ⟨ends, reads⟩ := executable_itemsEnd executable
  have final : ∀ item ∈ parsed format, item.Final := scan_final
  obtain ⟨chars, -, run⟩ := runItems_returns final 0 s ends
  rw [print_eq_runItems, same]
  exact ⟨_, _, chars, by rw [← reads]; exact run⟩

/-- `%hp` is a conversion for the parser and an invalid one for the executor, which prints `???`
and leaves the cursor on the `h`. -/
theorem shortPtr_disagrees :
    parseFormat [Chr.percent, Chr.h, Chr.p] 1 = .shortPtr ∧
      printFormat zeroEnv [Chr.percent, Chr.h, Chr.p] 1 ⟨0, [], []⟩ =
        .ok ((3, 1), ⟨0, [], questionMarks⟩) ∧
      ¬ AgreesAt zeroEnv [Chr.percent, Chr.h, Chr.p] 1 ⟨0, [], []⟩ :=
  ⟨rfl, rfl, fun agrees => (agreesAt_iff.mp agrees).1 (Or.inr (Or.inl rfl))⟩

end Run

end TrashOS
