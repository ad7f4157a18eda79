import Roundoff.Proofs.Binary64.Text
import Roundoff.Proofs.Line.Failures
import Roundoff.Proofs.Literal.Printed
import Roundoff.Proofs.Record.Agreement
import Roundoff.Record.Outcome
import Roundoff.Session.Report

/-! # Records keep their contract

The record of every success agrees with the shape and the schema of a success, and that of a failure
with those of a failure as long as the message says something and the position is not negative.  The
failures of a line are such, so every outcome of a line has a record, which meets the schema of
outcomes (`record_keeps_contract`).
-/
namespace Roundoff

/-! ## Texts of numbers -/

namespace Record

theorem isDigits_of_digits {ds : List Char} (h : Numeral.Digits ds) :
    Text.Pattern.isDigits ds = true := by
  simpa [Text.Pattern.isDigits, h.ne_nil] using h.all

theorem unsigned_integer (i : ℤ) (rest : List Char) :
    Text.Pattern.unsigned (Numeral.integer i ++ rest) = Numeral.natural i.natAbs ++ rest := by
  cases i with
  | ofNat n =>
    have hdigits := Numeral.digits_natural n
    have hhead : (Numeral.natural n ++ rest).head? ≠ some '-' := by
      rw [List.head?_append_of_ne_nil _ hdigits.ne_nil]
      exact hdigits.head_ne (by decide)
    show Text.Pattern.unsigned (Numeral.natural n ++ rest) = Numeral.natural n ++ rest
    unfold Text.Pattern.unsigned
    split
    · rename_i hcons
      rw [hcons] at hhead
      exact absurd rfl hhead
    · rfl
  | negSucc n => rfl

theorem fits_integer (i : ℤ) : Text.Pattern.integer.fits (Numeral.text i).toList = true := by
  have hunsigned := unsigned_integer i []
  rw [List.append_nil, List.append_nil] at hunsigned
  rw [Numeral.text, String.toList_ofList, Text.Pattern.fits, hunsigned]
  exact isDigits_of_digits (Numeral.digits_natural _)

theorem fits_denominator (x : ℚ) :
    Text.Pattern.positive.fits (Numeral.text x.den).toList = true := by
  rw [Numeral.text, String.toList_ofList, Text.Pattern.fits, Bool.and_eq_true]
  exact ⟨isDigits_of_digits (Numeral.digits_natural x.den),
    bne_iff_ne.2 (Numeral.head_natural_ne_zero x.den_pos)⟩

theorem fits_text (x : ℚ) : Text.Pattern.rational.fits (Exact.text x).toList = true := by
  have hnum := Numeral.digits_natural x.num.natAbs
  rw [Exact.text]
  split
  · have hunsigned := unsigned_integer x.num []
    have hdrop : (Numeral.natural x.num.natAbs ++ []).dropWhile Text.isAsciiDigit = [] :=
      Literal.dropWhile_digits hnum.all Literal.noDigit_nil
    rw [List.append_nil] at hdrop
    rw [List.append_nil, List.append_nil] at hunsigned
    rw [Numeral.text, String.toList_ofList, Text.Pattern.fits, hunsigned, hdrop]
    exact isDigits_of_digits hnum
  · have hslash : Literal.NoDigit ('/' :: Numeral.natural x.den) :=
      Literal.noDigit_cons (by decide)
    have hlist : (Numeral.text x.num ++ "/" ++ Numeral.text x.den).toList =
        Numeral.integer x.num ++ '/' :: Numeral.natural x.den := by
      simp only [Numeral.text, String.toList_append, String.toList_ofList, List.append_assoc]
      rfl
    rw [hlist, Text.Pattern.fits, unsigned_integer, Literal.dropWhile_digits hnum.all hslash,
      Literal.takeWhile_digits hnum.all hslash]
    exact Bool.and_eq_true_iff.2
      ⟨isDigits_of_digits hnum, isDigits_of_digits (Numeral.digits_natural x.den)⟩

end Record

/-! ## Texts that are not empty -/

theorem Expansion.text_ne (e : Expansion) : e.text ≠ "" := by
  intro h
  have hnil : e.chars = [] := by
    have := congrArg String.toList h
    rwa [text, String.toList_ofList] at this
  obtain ⟨sgn, hinteger, -⟩ := Literal.integer_eq e.whole
  rw [chars, List.append_eq_nil_iff, List.append_eq_nil_iff, hinteger, List.append_eq_nil_iff]
    at hnil
  exact (Numeral.digits_natural _).ne_nil hnil.1.2.2

namespace Binary64

theorem ofList_ne {cs : List Char} (h : cs ≠ []) : String.ofList cs ≠ "" := by
  intro heq
  have := congrArg String.toList heq
  rw [String.toList_ofList] at this
  exact h this

theorem text_ne (x : Binary64) : x.text ≠ "" := by
  rw [text]
  split
  · decide
  · split
    · split <;> decide
    · obtain ⟨l, hspell, -⟩ := spells_magnitudeText x.negative x.magnitude
      exact ofList_ne hspell.ne_nil

theorem hexText_ne (x : Binary64) : x.hexText ≠ "" := by
  rw [hexText]
  split
  · decide
  · split
    · split <;> decide
    · exact ofList_ne (List.append_ne_nil_of_right_ne_nil _ (List.cons_ne_nil _ _))

end Binary64

theorem RoundingStep.label_ne (step : RoundingStep) : step.label ≠ "" := by
  cases step with
  | literal source =>
    cases source with
    | none => decide
    | some t => exact append_ne_left (by decide)
  | operation op x y => cases op <;> exact ne_of_beq_false rfl

/-! ## The records of a value -/

namespace Record

/-- The record of a success: the members of a success behind those that all successes share. -/
def success (result : Evaluation) (metrics : Metrics) : Json := .object [
  ("status", .string "success"),
  ("float_format", .string Settings.floatFormat),
  ("exact", ofRational result.exact),
  ("shadow", ofFloat result.shadow.value),
  ("approximations", .strings result.approximations),
  ("rounding_events", .array (result.shadow.events.map ofEvent)),
  ("metrics", ofMetrics metrics)]

/-- The record of a failure. -/
def failure (f : Failure) : Json := .object [
  ("status", .string "failure"),
  ("kind", .string f.kind.name),
  ("message", .string f.message),
  ("position", .ofOption .int f.position),
  ("expected", .ofOption .string f.expected),
  ("found", .ofOption .string f.found),
  ("shadow", .ofOption (fun s => ofFloat s.value) f.shadow)]

theorem name_mem_floatClassNames (c : FloatClass) : c.name ∈ floatClassNames :=
  List.mem_map_of_mem (by cases c <;> simp)

theorem name_mem_flagNames (f : RoundingFlag) : f.name ∈ flagNames :=
  List.mem_map_of_mem (by cases f <;> simp)

theorem name_mem_accuracyNames (a : Accuracy) : a.name ∈ accuracyNames :=
  List.mem_map_of_mem (by cases a <;> simp)

theorem name_mem_failureKindNames (k : FailureKind) : k.name ∈ failureKindNames :=
  List.mem_map_of_mem (by cases k <;> simp [FailureKind.all])

theorem agrees_rational (x : ℚ) :
    Agrees rationalShape Contract.rational (ofRational x) (ofRational x) :=
  agrees_record
    (.given rfl (agrees_formed (fits_integer x.num)) <|
      .given rfl (agrees_formed (fits_denominator x)) <|
      .given rfl ⟨Shape.conform_anyText, isMet_formed (fits_text x)⟩ <|
      .given rfl (agrees_someText (Expansion.text_ne _)) .nil)
    (by simp)

theorem agrees_float (x : Binary64) :
    Agrees floatShape Contract.float (ofFloat x) (ofFloat x) :=
  agrees_record
    (.given rfl (agrees_someText x.text_ne) <|
      .given rfl (agrees_someText x.hexText_ne) <|
      .given rfl (agrees_choice (name_mem_floatClassNames _)) .nil)
    (by simp)

theorem agrees_event (e : RoundingEvent) :
    Agrees eventShape Contract.roundingEvent (ofEvent e) (ofEvent e) :=
  agrees_record
    (.given rfl (agrees_someText e.step.label_ne) <|
      .given rfl (agrees_strings _) <|
      .given rfl agrees_anyText <|
      .given rfl (agrees_choice (name_mem_flagNames _)) .nil)
    (by simp)

/-- The text of a rational, or null. -/
theorem agrees_ratio (x : Option ℚ) :
    Agrees (.optional anyText) Contract.ratioOrNull (ofRatio x) (ofRatio x) :=
  agrees_orNull rfl fun r _ => ⟨Shape.conform_anyText, isMet_formed (fits_text r)⟩

theorem agrees_metrics (m : Metrics) :
    Agrees metricsShape Contract.metrics (ofMetrics m) (ofMetrics m) :=
  agrees_record
    (.given rfl (agrees_choice (name_mem_accuracyNames _)) <|
      .given rfl (agrees_ratio _) <|
      .given rfl (agrees_ratio _) <|
      .given rfl (agrees_count fun n _ => Int.natCast_nonneg n) <|
      .given rfl (agrees_ratio _) <|
      .given rfl (agrees_booleanOrNull _) .nil)
    (by simp)

/-- **Every success has a record that meets the schema of a success.** -/
theorem agrees_success (result : Evaluation) (m : Metrics) :
    Agrees successShape Contract.success (ofSuccess result m) (success result m) := by
  have hevents : Agrees (.list eventShape) (Contract.arrayOf Contract.roundingEvent)
      (.array (result.shadow.events.map ofEvent)) (.array (result.shadow.events.map ofEvent)) := by
    refine agrees_list fun v hv => ?_
    obtain ⟨e, -, rfl⟩ := List.mem_map.1 hv
    exact agrees_event e
  exact agrees_record
    (.default rfl rfl <| .default rfl rfl <|
      .given rfl (agrees_rational result.exact) <|
      .given rfl (agrees_float result.shadow.value) <|
      .given rfl (agrees_strings result.approximations) <|
      .given rfl hevents <|
      .given rfl (agrees_metrics m) .nil)
    (by simp)

/-- A failure that says something, and whose position is not negative, has a record that meets the
schema of a failure. -/
theorem agrees_failure {f : Failure} (hmessage : f.message ≠ "")
    (hposition : ∀ p ∈ f.position, 0 ≤ p) :
    Agrees failureShape Contract.failure (ofFailure f) (failure f) := by
  have hshadow : Agrees (.optional floatShape) (.orNull Contract.float)
      (.ofOption (fun s => ofFloat s.value) f.shadow)
      (.ofOption (fun s => ofFloat s.value) f.shadow) :=
    agrees_orNull rfl fun s _ => agrees_float s.value
  exact agrees_record
    (.default rfl rfl <|
      .given rfl (agrees_choice (name_mem_failureKindNames _)) <|
      .given rfl (agrees_someText hmessage) <|
      .given rfl (agrees_count (f := id) hposition) <|
      .given rfl (agrees_textOrNull _) <|
      .given rfl (agrees_textOrNull _) <|
      .given rfl hshadow .nil)
    (by simp)

/-- The record of a success has not the status of a failure. -/
theorem isMet_failure_success (result : Evaluation) (m : Metrics) :
    Contract.failure.isMet (success result m) = false :=
  Schema.isMet_of_other_const (List.mem_cons_self ..) (t := "success") rfl (by decide)

theorem isMet_success_failure (f : Failure) : Contract.success.isMet (failure f) = false :=
  Schema.isMet_of_other_const (List.mem_cons_self ..) (t := "failure") rfl (by decide)

end Record

/-! ## The records of a line -/

namespace Line

/-- A place that a function gives for an error of its own is an offset. -/
theorem position_nonneg_of_ending? {e : RuleError} {x : EvalError} (h : e.ending? = some x) :
    ∀ p ∈ x.position, 0 ≤ p := by
  intro p hp
  cases e with
  | raised e =>
    cases h
    obtain ⟨q, -, rfl⟩ := Option.map_eq_some_iff.1 hp
    exact Int.natCast_nonneg q
  | arithmetic cause =>
    cases cause <;> cases h
    cases hp

/-- The position of an error about a line is not negative. -/
theorem position_nonneg {s : Settings} {line : String} {x : EvalError} (h : x.Placed s line) :
    ∀ p ∈ x.toFailure.position, 0 ≤ p := by
  intro p hp
  rcases h.raises_or_inside with ⟨_, _, _, -, hending⟩ | ⟨q, hq, hinside⟩
  · exact position_nonneg_of_ending? hending p hp
  · have hposition : x.position = some p := hp
    rw [hq] at hposition
    cases hposition
    exact hinside.1

/-- **Every outcome of a line has a record, and the record keeps the contract.**  Whatever the line
and the settings are, an outcome has a record without problems, which meets exactly one of the two
schemas, that of a success or that of a failure as the outcome is one; and so reporting the outcome
as a record never fails. -/
theorem record_keeps_contract {s : Settings} {line : String} {outcome : Outcome}
    (h : evaluate s line = .ok outcome) :
    ∃ record, Record.ofOutcome outcome = .ok record ∧
      Contract.outcome.isMet record = true ∧ Contract.findings record = [] ∧
      Contract.success.isMet record = outcome.isSuccess ∧
      Contract.failure.isMet record = !outcome.isSuccess ∧
      ∀ o : Session.Options, o.json = true →
        Session.report o line outcome = .ok [.message (record.indented 0) none] := by
  have hone : ∀ record, Record.ofOutcome outcome = .ok record →
      Contract.success.isMet record = outcome.isSuccess →
      Contract.failure.isMet record = !outcome.isSuccess →
      Contract.outcome.isMet record = true ∧ Contract.findings record = [] ∧
        ∀ o : Session.Options, o.json = true →
          Session.report o line outcome = .ok [.message (record.indented 0) none] := by
    intro record hrecord hsuccess hfailure
    have hmet : Contract.outcome.isMet record = true := by
      rw [Contract.outcome, Contract.alternatives, Schema.isMet_oneOf_pair, hsuccess, hfailure]
      cases outcome.isSuccess <;> rfl
    refine ⟨hmet, ?_, fun o ho => ?_⟩
    · rw [Contract.findings, if_pos hmet]
    · unfold Session.report
      rw [if_pos ho, hrecord]
  cases outcome with
  | success result m =>
    have hagrees := Record.agrees_success result m
    have hother := Record.isMet_failure_success result m
    obtain ⟨hmet, hfindings, hreport⟩ := hone _ hagrees.conforms hagrees.met hother
    exact ⟨_, hagrees.conforms, hmet, hfindings, hagrees.met, hother, hreport⟩
  | failure f =>
    obtain ⟨x, rfl, hstop⟩ := evaluate_eq_failure h
    have hplaced : x.Placed s line := by
      rcases hstop with htree | ⟨root, htree, hvalue⟩
      · exact placed_of_tree htree
      · exact placed_of_evaluate htree hvalue
    have hagrees : Agrees Record.failureShape Contract.failure _ _ :=
      Record.agrees_failure (f := x.toFailure) x.message_ne (position_nonneg hplaced)
    have hother := Record.isMet_success_failure x.toFailure
    obtain ⟨hmet, hfindings, hreport⟩ := hone _ hagrees.conforms hother hagrees.met
    exact ⟨_, hagrees.conforms, hmet, hfindings, hother, hagrees.met, hreport⟩

/-- The failure of `2 + 1/0` has a shadow that is infinite, and a record all the same. -/
theorem record_of_quotient : ∃ f record, evaluate {} "2 + 1/0" = .ok (.failure f) ∧
    Record.ofOutcome (.failure f) = .ok record ∧ Contract.outcome.isMet record = true := by
  have heval : evaluate {} "2 + 1/0" = .ok (.failure (EvalError.dividedByZero 5
      ⟨.infinity false, [⟨.operation .div .one (.zero false), .infinity false, .divideByZero⟩]⟩
      ).toFailure) := by
    decide +kernel
  obtain ⟨record, hrecord, hmet, -⟩ := record_keeps_contract heval
  exact ⟨_, record, heval, hrecord, hmet⟩

end Line

end Roundoff
