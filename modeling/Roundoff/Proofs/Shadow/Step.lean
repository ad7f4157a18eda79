import Roundoff.Proofs.Shadow.Flags

/-! # Steps on shadows

Everything a computation can do with shadows is one step of `Step`: round a rational, apply one of
the five operations, or take an opposite, an absolute value, or the smaller or larger of two
shadows.  The trail of the result is that of the operands (`before`), followed by one event or none;
a step records the flag of this event (`Records`).  Only rounding and the five operations
record anything, and they record the flag they find (`records_ofRat_iff`, `records_apply_iff`).
-/
namespace Roundoff.Shadow

/-- A step of a computation on shadows. -/
inductive Step where
  | ofRat (exact : Rat) (source : Option String)
  | apply (op : Operation) (x y : Shadow)
  | neg (x : Shadow)
  | abs (x : Shadow)
  | minimum (x y : Shadow)
  | maximum (x y : Shadow)

namespace Step

/-- The shadow a step comes to. -/
def result : Step → Shadow
  | ofRat exact source => Shadow.ofRat exact source
  | apply op x y => Shadow.apply op x y
  | neg x => x.neg
  | abs x => x.abs
  | minimum x y => x.minimum y
  | maximum x y => x.maximum y

/-- The trails of the operands of a step, left before right. -/
def before : Step → List RoundingEvent
  | ofRat _ _ => []
  | apply _ x y | minimum x y | maximum x y => x.events ++ y.events
  | neg x | abs x => x.events

/-- **A step records a flag** if an event with this flag is among those that follow the trails of
the operands. -/
def Records (s : Step) (f : RoundingFlag) : Prop :=
  ∃ added, s.result.events = s.before ++ added ∧ ∃ e ∈ added, e.flag = f

/-- A step that leaves the trails of its operands as they are records nothing. -/
theorem not_records_of_eq {s : Step} (h : s.result.events = s.before) (f : RoundingFlag) :
    ¬ s.Records f := by
  rintro ⟨added, hadded, e, he, -⟩
  rw [h, List.self_eq_append_right] at hadded
  rw [hadded] at he
  exact absurd he List.not_mem_nil

/-- A step that adds the event of a flag records this flag and no other. -/
theorem records_of_flag_iff {s : Step} {step : RoundingStep} {x : Binary64}
    {flag : Option RoundingFlag} (h : s.result.events = s.before ++ event? step x flag)
    (f : RoundingFlag) : s.Records f ↔ flag = some f := by
  have hevent : (∃ e ∈ event? step x flag, e.flag = f) ↔ flag = some f := by
    cases flag <;> simp [event?]
  rw [← hevent, Records, h]
  constructor
  · rintro ⟨added, hadded, he⟩
    rwa [List.append_cancel_left hadded]
  · intro he
    exact ⟨_, rfl, he⟩

theorem records_ofRat_iff (exact : ℚ) (source : Option String) (f : RoundingFlag) :
    (ofRat exact source).Records f ↔
      RoundingFlag.ofRounding? exact (Binary64.ofRat exact) = some f :=
  records_of_flag_iff rfl f

theorem records_apply_iff (op : Operation) (x y : Shadow) (f : RoundingFlag) :
    (apply op x y).Records f ↔
      RoundingFlag.ofOperation? op x.value y.value (op.rounded x.value y.value) = some f :=
  records_of_flag_iff rfl f

end Step

end Roundoff.Shadow
