import Roundoff.Proofs.Binary64.ReadBack
import Roundoff.Proofs.Expansion.Value
import Roundoff.Proofs.Record.Conformance

/-! # Records lose nothing

The record of a success holds the exact value, the metrics and the shadow as texts.  Each of these
is read back by the reader for its kind: rationals as literals, numerator and denominator as
numerals, the decimal as an expansion unless it is cut short, and the shadow as a rational to be
rounded.
-/
namespace Roundoff.Record

/-- The value that some member names lead to, one after the other. -/
def memberAt? : List String → Json → Option Json
  | [], v => some v
  | name :: names, v => (v.member? name).bind (memberAt? names)

/-- A member stands for a rational, if there is one: its text is read as the rational, and null
stands for none. -/
def ReadsAs (v : Option Json) : Option ℚ → Prop
  | none => v = some .null
  | some r => ∃ t, v = some (.string t) ∧ Literal.parse t = .ok r

theorem readsAs_ofRatio (x : Option ℚ) : ReadsAs (some (ofRatio x)) x := by
  cases x with
  | none => rfl
  | some r => exact ⟨Exact.text r, rfl, Literal.parse_text r⟩

theorem read_text (i : ℤ) : Numeral.read (Numeral.text i).toList = .ok i := by
  rw [Numeral.text, String.toList_ofList, Numeral.read_integer]

theorem ratio_num_den (x : ℚ) : Exact.ratio x.num x.den = .ok x :=
  Exact.ratio_eq_ok_iff.2 ⟨Int.natCast_ne_zero.2 x.den_nz, (Rat.num_divInt_den x).symm⟩

/-- The decimal of a rational is read as an expansion of the same value, unless it is cut short. -/
theorem parse_decimal (x : ℚ)
    (h : ¬ ['.', '.', '.'] <:+ (Expansion.ofRat x decimalDigits).text.toList) :
    ∃ e, Expansion.parse (Expansion.ofRat x decimalDigits).text = .ok e ∧ e.value = .ok x := by
  have hend : (Expansion.ofRat x decimalDigits).truncated = false :=
    Bool.eq_false_of_not_eq_true fun hcut => h (Expansion.suffix_of_truncated hcut)
  exact ⟨_, Expansion.parse_text hend (by decide), Expansion.value_ofRat hend⟩

/-- **Every value of a success can be read back from its record.**  The text of the exact value is
read as this value, which is also the quotient of the numbers that numerator and denominator are
read as; the decimal is read as an expansion of this value, unless it ends in three points; the
texts of the metrics are read as the metrics, null standing for what is undefined; and the text of a
finite shadow is read as a rational that rounds to the shadow, a negative zero to the positive one,
from which the hexadecimal text tells it. -/
theorem success_reads_back (result : Evaluation) (m : Metrics) :
    ∃ record, ofOutcome (.success result m) = .ok record ∧
      (∃ text numerator denominator p q,
        memberAt? ["exact", "text"] record = some (.string text) ∧
        memberAt? ["exact", "numerator"] record = some (.string numerator) ∧
        memberAt? ["exact", "denominator"] record = some (.string denominator) ∧
        Literal.parse text = .ok result.exact ∧ Numeral.read numerator.toList = .ok p ∧
        Numeral.read denominator.toList = .ok q ∧ Exact.ratio p q = .ok result.exact) ∧
      (∃ decimal, memberAt? ["exact", "decimal"] record = some (.string decimal) ∧
        (¬ ['.', '.', '.'] <:+ decimal.toList →
          ∃ e, Expansion.parse decimal = .ok e ∧ e.value = .ok result.exact)) ∧
      (ReadsAs (memberAt? ["metrics", "absolute_error"] record) m.absoluteError ∧
        ReadsAs (memberAt? ["metrics", "relative_error"] record) m.relativeError ∧
        ReadsAs (memberAt? ["metrics", "ulp_error"] record) m.ulpError ∧
        memberAt? ["metrics", "ulp_distance"] record = some (.ofOption .nat m.ulpDistance)) ∧
      ∃ text hex, memberAt? ["shadow", "text"] record = some (.string text) ∧
        memberAt? ["shadow", "hex"] record = some (.string hex) ∧
        (result.shadow.value.isFinite = true →
          (∃ r, Literal.parse text = .ok r ∧ Binary64.ofRat r =
            if result.shadow.value.isZero then .zero false else result.shadow.value) ∧
          (hex.toList.head? = some '-' ↔ result.shadow.value.negative = true)) := by
  refine ⟨success result m, (agrees_success result m).conforms, ?_, ?_, ?_, ?_⟩
  · exact ⟨Exact.text result.exact, Numeral.text result.exact.num, Numeral.text result.exact.den,
      result.exact.num, result.exact.den, rfl, rfl, rfl, Literal.parse_text _, read_text _,
      read_text _, ratio_num_den _⟩
  · exact ⟨(Expansion.ofRat result.exact decimalDigits).text, rfl, parse_decimal result.exact⟩
  · exact ⟨readsAs_ofRatio _, readsAs_ofRatio _, readsAs_ofRatio _, rfl⟩
  · exact ⟨result.shadow.value.text, result.shadow.value.hexText, rfl, rfl,
      fun hfinite => ⟨Binary64.parse_text hfinite, Binary64.head_hexText hfinite⟩⟩

end Roundoff.Record
