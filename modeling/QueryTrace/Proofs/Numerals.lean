/-
Numbers that are parsed but cannot be read.

A word of digits is a number to the parser, in whatever script the digits are written, and two such
words with a point between them are one number.  A number is read when it is evaluated, and only
the digits of ASCII can be read.  So the two disagree about numbers with other digits.

* `Decimal.readDouble?_eq_none_iff` — of what the parser takes for a number, exactly what has a
  foreign digit cannot be read;
* `Scope.ComesTo` — evaluation comes to a number, through aliases, rows of groups and operands;
* `ComesTo.fails`, `comesTo_of_fails` — it fails for a number if and only if it comes to one that
  cannot be read;
* **`evaluate_invalidNumber_iff`** — both together, for expressions that come from texts.

Design notes: operands and rows are evaluated one after the other, and the first failure is given.
So `ComesTo` asks that what is evaluated before the number has a value.
-/
import QueryTrace.Proofs.CaseFolding
import QueryTrace.Proofs.JsonText
import QueryTrace.Proofs.Parsed
import QueryTrace.Proofs.RealTexts
import QueryTrace.Proofs.References

namespace QueryTrace

/-! ### Digits -/

namespace Decimal

/-- Has the text a digit that is none of the ten of ASCII? -/
def HasForeignDigit (raw : String) : Prop :=
  ∃ c ∈ raw.toList, Text.isDecimalDigit c = true ∧ c.isDigit = false

instance (raw : String) : Decidable (HasForeignDigit raw) :=
  decidable_of_iff (raw.toList.any fun c => Text.isDecimalDigit c && !c.isDigit)
    (by simp [HasForeignDigit])

/-- What is read has no other characters than those of numbers. -/
theorem isNumberChar_of_readSpelling? {cs : List Char} (h : (readSpelling? cs).isSome = true) :
    ∀ c ∈ cs, Json.isNumberChar c = true := by
  rw [← splitDigits_append cs, List.forall_mem_append]
  refine ⟨Json.isNumberChar_of_splitDigits cs, ?_⟩
  unfold readSpelling? at h
  dsimp only at h
  split at h
  · next rest hrest =>
    rw [hrest, List.forall_mem_cons, ← splitDigits_append rest, List.forall_mem_append]
    split at h
    · cases h
    · rw [Option.isSome_map] at h
      exact ⟨rfl, Json.isNumberChar_of_splitDigits rest, Json.isNumberChar_of_exponent h⟩
  · split at h
    · cases h
    · rw [Option.isSome_map] at h
      exact Json.isNumberChar_of_exponent h

/-- The marks in spellings of numbers, and the letters in them or at the beginning of a word. -/
def spellingMarks : List Char := ['-', '+', '.', 'e', 'E', 'i', 'n']

theorem ne_of_isDecimalDigit {c : Char} (h : Text.isDecimalDigit c = true) :
    ∀ d ∈ spellingMarks, c ≠ d := by
  have hall : spellingMarks.all (fun d => !Text.isDecimalDigit d) = true := by decide
  rintro d hd rfl
  have hno := List.all_eq_true.mp hall c hd
  rw [h] at hno
  cases hno

theorem isNumberChar_of_foreign {c : Char} (h : Text.isDecimalDigit c = true)
    (hforeign : c.isDigit = false) : Json.isNumberChar c = false := by
  have hmark : ∀ d ∈ spellingMarks, (c == d) = false :=
    fun d hd => beq_eq_false_iff_ne.mpr (ne_of_isDecimalDigit h d hd)
  simp only [spellingMarks, List.forall_mem_cons] at hmark
  obtain ⟨h1, h2, h3, h4, h5, -⟩ := hmark
  rw [Json.isNumberChar, hforeign, h1, h2, h3, h4, h5]
  rfl

/-- Behind a digit of whatever script comes no sign and no word. -/
theorem readDouble?_of_head {raw : String} {c : Char} {cs : List Char} (h : raw.toList = c :: cs)
    (hc : Text.isDecimalDigit c = true) :
    readDouble? raw = (readSpelling? raw.toList).map Spelling.nearest := by
  have hno := ne_of_isDecimalDigit hc
  simp only [spellingMarks, List.forall_mem_cons] at hno
  obtain ⟨hminus, hplus, -, -, -, hi, hn, -⟩ := hno
  have hword : ∀ d ds, c ≠ d →
      String.ofList ((c :: cs).map Char.toLower) ≠ String.ofList (d :: ds) := by
    intro d ds hd heq
    have hlower : c.toLower = c := lower_of_isDecimalDigit hc
    rw [String.ofList_inj, List.map_cons, hlower] at heq
    exact hd (List.cons.inj heq).1
  rw [readDouble?, h]
  split
  · next heq => exact absurd (List.cons.inj heq).1 hminus
  · next heq => exact absurd (List.cons.inj heq).1 hplus
  · rw [readMagnitude?, if_neg, if_neg]
    · exact hword 'n' ['a', 'n'] hn
    · rw [not_or]
      exact ⟨hword 'i' ['n', 'f'] hi, hword 'i' ['n', 'f', 'i', 'n', 'i', 't', 'y'] hi⟩

theorem exists_head_of_isNumeral {t : String} (h : Text.isNumeral t = true) :
    ∃ c cs, t.toList = c :: cs ∧ ∀ d ∈ c :: cs, Text.isDecimalDigit d = true := by
  rw [Text.isNumeral, Bool.and_eq_true, Bool.not_eq_true', List.isEmpty_eq_false_iff] at h
  obtain ⟨hne, hdigits⟩ := h
  obtain ⟨c, cs, hcs⟩ := List.exists_cons_of_ne_nil hne
  rw [hcs, List.all_eq_true] at hdigits
  exact ⟨c, cs, hcs, hdigits⟩

/-- A numeral without foreign digits is one of ASCII. -/
theorem isDigit_of_isNumeral {t : String} (h : Text.isNumeral t = true)
    (hno : ∀ c ∈ t.toList, Text.isDecimalDigit c = true → c.isDigit = true) :
    t.toList ≠ [] ∧ ∀ c ∈ t.toList, c.isDigit = true := by
  obtain ⟨c, cs, hcs, hdigits⟩ := exists_head_of_isNumeral h
  rw [← hcs] at hdigits
  exact ⟨by simp [hcs], fun d hd => hno d hd (hdigits d hd)⟩

theorem exists_head_of_isNumber {raw : String} (h : Expr.IsNumber raw) :
    ∃ c cs, raw.toList = c :: cs ∧ Text.isDecimalDigit c = true := by
  rcases h with h | ⟨whole, fraction, hwhole, -, hraw⟩
  · obtain ⟨c, cs, hcs, hdigits⟩ := exists_head_of_isNumeral h
    exact ⟨c, cs, hcs, hdigits c List.mem_cons_self⟩
  · obtain ⟨c, cs, hcs, hdigits⟩ := exists_head_of_isNumeral hwhole
    refine ⟨c, cs ++ '.' :: fraction.toList, ?_, hdigits c List.mem_cons_self⟩
    simp [hraw, hcs]

theorem readSpelling?_isSome {raw : String} (h : Expr.IsNumber raw)
    (hno : ∀ c ∈ raw.toList, Text.isDecimalDigit c = true → c.isDigit = true) :
    (readSpelling? raw.toList).isSome = true := by
  rcases h with h | ⟨whole, fraction, hwhole, hfraction, hraw⟩
  · obtain ⟨hne, hdigits⟩ := isDigit_of_isNumeral h hno
    rw [readSpelling?_whole hne hdigits]
    rfl
  · have hchars : raw.toList = whole.toList ++ '.' :: fraction.toList := by simp [hraw]
    rw [hchars, List.forall_mem_append, List.forall_mem_cons] at hno
    obtain ⟨-, hdigits⟩ := isDigit_of_isNumeral hwhole hno.1
    obtain ⟨hne, hdigits'⟩ := isDigit_of_isNumeral hfraction hno.2.2
    rw [hchars, readSpelling?_point hne hdigits hdigits']
    rfl

/-- **A number that is parsed can be read unless it has a foreign digit.** -/
theorem readDouble?_eq_none_iff {raw : String} (h : Expr.IsNumber raw) :
    readDouble? raw = none ↔ HasForeignDigit raw := by
  obtain ⟨c, cs, hraw, hc⟩ := exists_head_of_isNumber h
  rw [readDouble?_of_head hraw hc, Option.map_eq_none_iff]
  constructor
  · intro hnone
    by_contra hforeign
    have hno : ∀ d ∈ raw.toList, Text.isDecimalDigit d = true → d.isDigit = true := by
      intro d hd hdigit
      by_contra hd'
      exact hforeign ⟨d, hd, hdigit, Bool.eq_false_iff.mpr hd'⟩
    have hsome := readSpelling?_isSome h hno
    rw [hnone] at hsome
    cases hsome
  · rintro ⟨d, hd, hdigit, hforeign⟩
    rw [← Option.not_isSome_iff_eq_none]
    intro hsome
    have hchar := isNumberChar_of_readSpelling? hsome d hd
    rw [isNumberChar_of_foreign hdigit hforeign] at hchar
    cases hchar

end Decimal

/-! ### Evaluation comes to a number -/

namespace Expr

/-- The numbers in an expression, as they were written. -/
def numbers : Expr → List String
  | number raw => [raw]
  | aggregate _ argument => argument.numbers
  | binary _ l r => l.numbers ++ r.numbers
  | _ => []

/-- The parser makes numbers of nothing but digits and points. -/
theorem isNumber_of_readable {e : Expr} (h : e.Readable) : ∀ raw ∈ e.numbers, IsNumber raw := by
  induction e with
  | number raw =>
    intro raw' hraw
    cases List.mem_singleton.mp hraw
    exact h
  | text | column | qualified => simp [numbers]
  | aggregate function argument ih => exact ih h.2.2
  | binary op l r ihl ihr => exact List.forall_mem_append.mpr ⟨ihl h.1, ihr h.2⟩

end Expr

namespace Scope

/-- Does evaluation come to the number?  Whatever is evaluated before it has a value. -/
inductive ComesTo (scope : Scope) : Nat → Expr → Row → String → Prop where
  | number {steps : Nat} {row : Row} {raw : String} : ComesTo scope steps (.number raw) row raw
  | followed {steps : Nat} {e d : Expr} {n raw : String} {row : Row} (hn : e.reference? = some n)
    (hs : scope.standsFor? n = some d) (h : ComesTo scope steps d row raw) :
    ComesTo scope (steps + 1) e row raw
  | argument {steps : Nat} {function raw : String} {argument : Expr} {row r : Row}
    {before after : List Row} (hg : scope.group = some (before ++ r :: after))
    (hc : Aggregate.countsRows function.toLower argument = false)
    (hbefore : ∀ b ∈ before, ∃ v, scope.evaluateIn steps argument b = .ok v)
    (h : ComesTo scope steps argument r raw) :
    ComesTo scope steps (.aggregate function argument) row raw
  | left {steps : Nat} {op : BinOp} {l r : Expr} {row : Row} {raw : String}
    (h : ComesTo scope steps l row raw) : ComesTo scope steps (.binary op l r) row raw
  | right {steps : Nat} {op : BinOp} {l r : Expr} {row : Row} {v : Value} {raw : String}
    (hl : scope.evaluateIn steps l row = .ok v) (h : ComesTo scope steps r row raw) :
    ComesTo scope steps (.binary op l r) row raw

variable {scope : Scope} {steps : Nat} {e : Expr} {row : Row} {raw : String}

theorem ComesTo.mem_numbers (h : scope.ComesTo steps e row raw) :
    raw ∈ e.numbers ∨ ∃ entry ∈ scope.aliases, raw ∈ entry.item.numbers := by
  induction h with
  | number => exact .inl (List.mem_singleton_self _)
  | followed hn hs _ ih =>
    obtain ⟨entry, hentry, -, hitem⟩ := standsFor?_mem hs
    rw [← hitem] at ih
    rcases ih with hmem | hmem
    · exact .inr ⟨entry, hentry, hmem⟩
    · exact .inr hmem
  | argument _ _ _ _ ih => exact ih
  | left _ ih => exact ih.imp_left (List.mem_append_left _)
  | right _ _ ih => exact ih.imp_left (List.mem_append_right _)

/-- Where evaluation comes to a number that cannot be read, it fails. -/
theorem ComesTo.fails (h : scope.ComesTo steps e row raw)
    (hraw : Decimal.readDouble? raw = none) :
    scope.evaluateIn steps e row = .error (.invalidNumber raw) := by
  induction h with
  | number => rw [evaluateIn, Expr.evalUsing, hraw]
  | followed hn hs _ ih => rw [evaluateIn_alias hn hs, ih hraw]
  | @argument steps function raw argument row r before after hg hc hbefore _ ih =>
    have hvalues : (before ++ r :: after).mapM (scope.evaluateIn steps argument) =
        .error (.invalidNumber raw) :=
      Trace.mapM_eq_error_iff.mpr ⟨before, r, after, rfl, hbefore, ih hraw⟩
    rw [evaluateIn_aggregate hg hc, hvalues]
    rfl
  | left _ ih =>
    rw [evaluateIn_binary, ih hraw]
    rfl
  | right hl _ ih =>
    rw [evaluateIn_binary, hl, ih hraw]
    rfl

/-- No step but the reading of a number fails for a number. -/
theorem comesTo_of_fails (steps : Nat) (e : Expr) (row : Row)
    (h : scope.evaluateIn steps e row = .error (.invalidNumber raw)) :
    scope.ComesTo steps e row raw ∧ Decimal.readDouble? raw = none := by
  induction steps, e using scope.evaluation_induction generalizing row with
  | number steps raw' =>
    rw [evaluateIn, Expr.evalUsing] at h
    cases hread : Decimal.readDouble? raw' with
    | some x =>
      rw [hread] at h
      cases h
    | none =>
      rw [hread] at h
      cases h
      exact ⟨.number, hread⟩
  | text steps content => cases h
  | reference steps e n hn ih =>
    rcases scope.lookup_cases n with ⟨i, hc⟩ | ⟨hc, hd⟩ | ⟨d, hs⟩
    · rw [evaluateIn_cell hn hc, cell] at h
      cases hv : row[i]? with
      | some v =>
        rw [hv] at h
        cases h
      | none =>
        rw [hv] at h
        cases h
    · rw [evaluateIn_unknown hn hc hd] at h
      cases h
    · cases steps with
      | zero =>
        rw [evaluateIn_circular hn hs] at h
        cases h
      | succ left =>
        rw [evaluateIn_alias hn hs] at h
        obtain ⟨hcomes, hread⟩ := ih left d rfl hs row h
        exact ⟨.followed hn hs hcomes, hread⟩
  | aggregate steps function argument ih =>
    cases hg : scope.group with
    | none =>
      rw [evaluateIn_ungrouped hg] at h
      cases h
    | some rows =>
      cases hc : Aggregate.countsRows function.toLower argument with
      | true =>
        rw [evaluateIn_counted hg hc] at h
        cases h
      | false =>
        rw [evaluateIn_aggregate hg hc] at h
        cases hvalues : rows.mapM (scope.evaluateIn steps argument) with
        | ok values =>
          rw [hvalues, except_ok_bind] at h
          unfold Aggregate.apply at h
          split at h <;> cases h
        | error cause =>
          rw [hvalues] at h
          cases h
          -- the first row without a value is the one that comes to the number
          obtain ⟨before, r, after, hrows, hbefore, hr⟩ := Trace.mapM_eq_error_iff.mp hvalues
          obtain ⟨hcomes, hread⟩ := ih r hr
          exact ⟨.argument (hrows ▸ hg) hc hbefore hcomes, hread⟩
  | binary steps op l r ihl ihr =>
    rw [evaluateIn_binary] at h
    cases hl : scope.evaluateIn steps l row with
    | error cause =>
      rw [hl] at h
      cases h
      obtain ⟨hcomes, hread⟩ := ihl row hl
      exact ⟨.left hcomes, hread⟩
    | ok v =>
      rw [hl, except_ok_bind] at h
      cases hr : scope.evaluateIn steps r row with
      | error cause =>
        rw [hr] at h
        cases h
        obtain ⟨hcomes, hread⟩ := ihr row hr
        exact ⟨.right hl hcomes, hread⟩
      | ok w =>
        rw [hr] at h
        cases h

end Scope

/-- **A number is refused if it has a foreign digit.**  Where the expressions come from texts,
evaluation fails for a number if and only if it comes to it and the number has a digit that is none
of ASCII.  So no number is refused where there are no such digits. -/
theorem evaluate_invalidNumber_iff {text : String} {e : Expr} (he : Expr.parse text = .ok e)
    {scope : Scope} (ha : ∀ entry ∈ scope.aliases, ∃ s, Expr.parse s = .ok entry.item) :
    (∀ row raw, scope.evaluate e row = .error (.invalidNumber raw) ↔
      scope.ComesTo scope.aliases.length e row raw ∧ Decimal.HasForeignDigit raw) ∧
    ((∀ raw, raw ∈ e.numbers ∨ (∃ entry ∈ scope.aliases, raw ∈ entry.item.numbers) →
        ¬ Decimal.HasForeignDigit raw) →
      ∀ row raw, scope.evaluate e row ≠ .error (.invalidNumber raw)) := by
  have hnumber : ∀ raw, raw ∈ e.numbers ∨ (∃ entry ∈ scope.aliases, raw ∈ entry.item.numbers) →
      Expr.IsNumber raw := by
    intro raw hraw
    rcases hraw with hraw | ⟨entry, hentry, hraw⟩
    · exact Expr.isNumber_of_readable (Expr.readable_of_parse he) raw hraw
    · obtain ⟨s, hs⟩ := ha entry hentry
      exact Expr.isNumber_of_readable (Expr.readable_of_parse hs) raw hraw
  have hiff : ∀ row raw, scope.evaluate e row = .error (.invalidNumber raw) ↔
      scope.ComesTo scope.aliases.length e row raw ∧ Decimal.HasForeignDigit raw := by
    intro row raw
    constructor
    · intro h
      obtain ⟨hcomes, hread⟩ := Scope.comesTo_of_fails _ e row h
      exact ⟨hcomes, (Decimal.readDouble?_eq_none_iff (hnumber raw hcomes.mem_numbers)).mp hread⟩
    · rintro ⟨hcomes, hforeign⟩
      exact hcomes.fails
        ((Decimal.readDouble?_eq_none_iff (hnumber raw hcomes.mem_numbers)).mpr hforeign)
  refine ⟨hiff, fun hno row raw h => ?_⟩
  obtain ⟨hcomes, hforeign⟩ := (hiff row raw).mp h
  exact hno raw hcomes.mem_numbers hforeign

/-- A select list with an alias for a number that is partly written in other digits. -/
def foreignDigits : Scope where
  columns := ["t.x"]
  aliases := [⟨.number "1.\u0663", some "third"⟩]

theorem evaluate_invalidNumber_examples :
    (Expr.parse "x + third" = .ok (.binary .add (.column "x") (.column "third")) ∧
      Expr.parse "1.\u0663" = .ok (.number "1.\u0663") ∧
      foreignDigits.evaluate (.binary .add (.column "x") (.column "third")) [.text "p"] =
        .error (.invalidNumber "1.\u0663")) ∧
    Expr.parse "x + 1.5" = .ok (.binary .add (.column "x") (.number "1.5")) ∧
      ∀ row raw, foreignDigits.withoutAliases.evaluate
        (.binary .add (.column "x") (.number "1.5")) row ≠ .error (.invalidNumber raw) := by
  have hthird : Expr.parse "1.\u0663" = .ok (.number "1.\u0663") :=
    eq_ok_of_toOption (by decide +kernel)
  have hsum : Expr.parse "x + third" = .ok (.binary .add (.column "x") (.column "third")) :=
    eq_ok_of_toOption (by decide +kernel)
  have hdecimal : Expr.parse "x + 1.5" = .ok (.binary .add (.column "x") (.number "1.5")) :=
    eq_ok_of_toOption (by decide +kernel)
  have haliases : ∀ entry ∈ foreignDigits.aliases, ∃ s, Expr.parse s = .ok entry.item := by
    intro entry hentry
    obtain rfl := List.mem_singleton.mp hentry
    exact ⟨"1.\u0663", hthird⟩
  have hnone : ∀ entry ∈ foreignDigits.withoutAliases.aliases,
      ∃ s, Expr.parse s = .ok entry.item := by
    intro entry hentry
    cases hentry
  have hcomes : foreignDigits.ComesTo 1 (.binary .add (.column "x") (.column "third"))
      [.text "p"] "1.\u0663" :=
    .right (v := .text "p") rfl (.followed rfl rfl .number)
  have hforeign : Decimal.HasForeignDigit "1.\u0663" := by decide
  obtain ⟨hrefused, -⟩ := evaluate_invalidNumber_iff hsum haliases
  obtain ⟨-, hread⟩ := evaluate_invalidNumber_iff hdecimal hnone
  refine ⟨⟨hsum, hthird, (hrefused _ _).mpr ⟨hcomes, hforeign⟩⟩, hdecimal, hread ?_⟩
  rintro raw (hraw | ⟨entry, hentry, -⟩)
  · obtain rfl := List.mem_singleton.mp hraw
    decide
  · cases hentry

end QueryTrace
