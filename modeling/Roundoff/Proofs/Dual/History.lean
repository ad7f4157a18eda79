import Roundoff.Proofs.Dual.FirstFault
import Roundoff.Proofs.Shadow.Exactness

/-! # The trail is the history of the tree

Every node of a tree that has a value records events of its own (`OwnEvents`): a literal its
conversion, a constant the trail it is stored with, a binary operator at most one event on the
shadows of its operands, and signs and the default functions none.  The trail of a value is what the
nodes of its tree record, from the first to the last in post-order (`History`).  An operand keeps
its part of the trail whatever becomes of its value.
-/
namespace Roundoff

namespace DualValue

variable {s : Settings}

/-- **The events that a node records of its own**, its operands having the values that the
evaluation gives them. -/
inductive OwnEvents (s : Settings) : Expr → List RoundingEvent → Prop
  /-- A literal that denotes a binary64 value is converted without an event. -/
  | exact {text : String} {p : ℤ} {r : ℚ} : Literal.number? text = some r →
      (Binary64.ofRat r).rational = .ok r → OwnEvents s (.number text p) []
  /-- The conversion of every other literal is an event that bears its text. -/
  | rounded {text : String} {p : ℤ} {r : ℚ} {flag : RoundingFlag} :
      Literal.number? text = some r → (Binary64.ofRat r).rational ≠ .ok r →
      RoundingFlag.ofRounding? r (Binary64.ofRat r) = some flag →
      OwnEvents s (.number text p) [⟨.literal (some text), Binary64.ofRat r, flag⟩]
  | constant {n : String} {p : ℤ} {c : NamedConstant} : s.symbols.constant? n = some c →
      OwnEvents s (.name n p) c.shadow.events
  | sign {op : String} {e : Expr} {p : ℤ} : OwnEvents s (.unary op e p) []
  /-- An operation is an event on the shadows of its operands, if it has a flag. -/
  | operation {symbol : String} {op : Operation} {l r : Expr} {p : ℤ} {x y v : DualValue} :
      Operation.ofSymbol? symbol = some op → ofExpr s l = .ok x → ofExpr s r = .ok y →
      ofExpr s (.binary symbol l r p) = .ok v →
      OwnEvents s (.binary symbol l r p)
        (Shadow.event? (.operation op x.shadow.value y.shadow.value) v.shadow.value
          (RoundingFlag.ofOperation? op x.shadow.value y.shadow.value v.shadow.value))
  | call {n : String} {args : List Expr} {p : ℤ} : OwnEvents s (.call n args p) []

/-- A node has one list of events of its own. -/
theorem OwnEvents.unique {n : Expr} {xs ys : List RoundingEvent} (hxs : OwnEvents s n xs)
    (hys : OwnEvents s n ys) : xs = ys := by
  cases hxs with
  | exact hr hexact =>
    cases hys with
    | exact => rfl
    | rounded hr' hrounded =>
      cases hr.symm.trans hr'
      exact absurd hexact hrounded
  | rounded hr hrounded hflag =>
    cases hys with
    | exact hr' hexact =>
      cases hr.symm.trans hr'
      exact absurd hexact hrounded
    | rounded hr' _ hflag' =>
      cases hr.symm.trans hr'
      cases hflag.symm.trans hflag'
      rfl
  | constant hc =>
    cases hys with
    | constant hc' =>
      cases hc.symm.trans hc'
      rfl
  | sign =>
    cases hys
    rfl
  | operation hop hl hr hv =>
    cases hys with
    | operation hop' hl' hr' hv' =>
      cases hop.symm.trans hop'
      cases hl.symm.trans hl'
      cases hr.symm.trans hr'
      cases hv.symm.trans hv'
      rfl
  | call =>
    cases hys
    rfl

/-- **What some nodes record, one after the other.** -/
def History (s : Settings) (nodes : List Expr) (events : List RoundingEvent) : Prop :=
  ∃ own, List.Forall₂ (OwnEvents s) nodes own ∧ events = own.flatten

theorem History.nil : History s [] [] :=
  ⟨[], .nil, rfl⟩

theorem History.append {ms ns : List Expr} {xs ys : List RoundingEvent} (hxs : History s ms xs)
    (hys : History s ns ys) : History s (ms ++ ns) (xs ++ ys) := by
  obtain ⟨own, hown, rfl⟩ := hxs
  obtain ⟨own', hown', rfl⟩ := hys
  exact ⟨own ++ own', List.rel_append hown hown', List.flatten_append.symm⟩

theorem OwnEvents.history {n : Expr} {xs : List RoundingEvent} (h : OwnEvents s n xs) :
    History s [n] xs :=
  ⟨[xs], .cons h .nil, by rw [List.flatten_singleton]⟩

/-- The nodes decide what is recorded. -/
theorem History.eq_iff {nodes : List Expr} {xs : List RoundingEvent} (h : History s nodes xs)
    {ys : List RoundingEvent} : History s nodes ys ↔ ys = xs := by
  obtain ⟨own, hown, rfl⟩ := h
  constructor
  · rintro ⟨own', hown', rfl⟩
    have hunique : Relator.RightUnique (OwnEvents s) := fun _ _ _ hxs hys => hxs.unique hys
    rw [hunique.forall₂ hown' hown]
  · rintro rfl
    exact ⟨own, hown, rfl⟩

/-! ## Nodes -/

/-- The value is the one of the tree, and its trail is the history of the tree. -/
def Traced (s : Settings) (e : Expr) (v : DualValue) : Prop :=
  ofExpr s e = .ok v ∧ History s e.postorder v.shadow.events

theorem traced_literal {text : String} {p : ℤ} {v : DualValue} (h : ofLiteral s text p = .ok v) :
    Traced s (.number text p) v := by
  have hnumber : (Expr.number text p).exactValue? s.symbols = v.exact.toOption :=
    exactValue?_literal h
  have hvalue : ofExpr s (.number text p) = .ok v := by rw [ofExpr, h]
  obtain ⟨r, -, -, rfl⟩ := ofLiteral_eq_ok h
  refine ⟨hvalue, OwnEvents.history ?_⟩
  cases hflag : RoundingFlag.ofRounding? r (Binary64.ofRat r) with
  | none =>
    rw [Shadow.ofRat, hflag]
    exact .exact hnumber (RoundingFlag.ofRounding?_eq_none_iff.1 hflag)
  | some flag =>
    have hrounded : (Binary64.ofRat r).rational ≠ .ok r := by
      rw [Ne, ← RoundingFlag.ofRounding?_eq_none_iff, hflag]
      exact Option.some_ne_none flag
    rw [Shadow.ofRat, hflag]
    exact .rounded hnumber hrounded hflag

theorem traced_name {n : String} {p : ℤ} {v : DualValue} (h : ofName s n p = .ok v) :
    Traced s (.name n p) v := by
  have hvalue : ofExpr s (.name n p) = .ok v := by rw [ofExpr, h]
  obtain ⟨c, hc, rfl⟩ := ofName_eq_ok h
  exact ⟨hvalue, (OwnEvents.constant hc).history⟩

theorem traced_unary {op : String} {e : Expr} {p : ℤ} {v : DualValue} (h : Traced s e v) :
    Traced s (.unary op e p) (unary op v) := by
  obtain ⟨hvalue, hhistory⟩ := h
  have hevents : (unary op v).shadow.events = v.shadow.events ++ [] := by
    rw [unary, List.append_nil]
    split <;> rfl
  refine ⟨by rw [ofExpr, hvalue]; rfl, ?_⟩
  rw [hevents]
  exact hhistory.append OwnEvents.sign.history

/-- The trails of both operands are kept, also where the exact side of one has faulted. -/
theorem traced_binary {symbol : String} {l r : Expr} {p : ℤ} {x y v : DualValue}
    (hl : Traced s l x) (hr : Traced s r y) (h : binary s symbol p x y = .ok v) :
    Traced s (.binary symbol l r p) v := by
  obtain ⟨hx, hlhistory⟩ := hl
  obtain ⟨hy, hrhistory⟩ := hr
  have hvalue : ofExpr s (.binary symbol l r p) = .ok v := by
    rw [ofExpr, hx, hy]
    exact h
  obtain ⟨op, exact, hop, -, -, rfl⟩ := binary_eq_ok h
  refine ⟨hvalue, ?_⟩
  dsimp only [Shadow.apply]
  rw [List.append_assoc]
  exact hlhistory.append (hrhistory.append (OwnEvents.operation hop hx hy hvalue).history)

theorem history_operands {args : List Expr} {vs : List DualValue}
    (h : List.Forall₂ (Traced s) args vs) :
    ofExprs s args = .ok vs ∧
      History s (Expr.postorderList args) (vs.flatMap fun v => v.shadow.events) := by
  induction h with
  | nil => exact ⟨rfl, .nil⟩
  | cons he _ ih =>
    obtain ⟨hv, hhistory⟩ := he
    obtain ⟨hvs, hhistories⟩ := ih
    exact ⟨(ofExprs_cons_eq_ok s).2 ⟨_, _, hv, hvs, rfl⟩, hhistory.append hhistories⟩

/-- A default function keeps the trails of all its arguments, selected or not. -/
theorem events_call (htable : s.symbols.functions = SymbolTable.default.functions) {n : String}
    {p : ℤ} {vs : List DualValue} {v : DualValue} (h : call s n p vs = .ok v) :
    v.shadow.events = vs.flatMap fun x => x.shadow.events := by
  cases call_default htable h with
  | abs => exact (List.append_nil _).symm
  | min | max => simp

theorem traced_call (htable : s.symbols.functions = SymbolTable.default.functions) {n : String}
    {args : List Expr} {p : ℤ} {vs : List DualValue} {v : DualValue}
    (hargs : List.Forall₂ (Traced s) args vs) (h : call s n p vs = .ok v) :
    Traced s (.call n args p) v := by
  obtain ⟨hvs, hhistory⟩ := history_operands hargs
  refine ⟨?_, ?_⟩
  · obtain ⟨f, hf, -⟩ := bind_eq_ok.1 h
    rw [ofExpr, ← length_ofExprs s hvs, hf, hvs]
    exact h
  · rw [events_call htable h, ← List.append_nil (List.flatMap _ _)]
    exact hhistory.append OwnEvents.call.history

/-- **Every value has the history of its tree as its trail.** -/
theorem traced_of_ofExpr (htable : s.symbols.functions = SymbolTable.default.functions)
    {e : Expr} {v : DualValue} (h : ofExpr s e = .ok v) : Traced s e v := by
  refine Hereditary.ofExpr ?_ e v h
  exact ⟨fun _ _ _ => traced_literal, fun _ _ _ => traced_name, fun _ _ _ _ => traced_unary,
    fun _ _ _ _ _ _ _ => traced_binary, fun _ _ _ _ _ => traced_call htable⟩

end DualValue

/-- **The trail is the history of the tree**, with the default functions and any constants.  The
trail of a result, and the one that a division by zero carries, is what the nodes of the tree record
in post-order, and nothing else is.  In the course of the walk, so is the trail of every value on
the stack for the node that it belongs to. -/
theorem evaluate_history (s : Settings)
    (htable : s.symbols.functions = SymbolTable.default.functions) (e : Expr) :
    (∀ v, evaluate s e = .ok v →
      ∀ events, DualValue.History s e.postorder events ↔ events = v.shadow.events) ∧
    (∀ x shadow, evaluate s e = .error (.error x) → x.shadow? = some shadow →
      ∀ events, DualValue.History s e.postorder events ↔ events = shadow.events) ∧
    ∀ ts vs, Walk.Reaches s e ts vs → ∀ v ∈ vs, ∃ n ∈ e.preorder, DualValue.ofExpr s n = .ok v ∧
      ∀ events, DualValue.History s n.postorder events ↔ events = v.shadow.events := by
  refine ⟨fun v h _ => ?_, fun x shadow h hshadow _ => ?_, fun ts vs hreaches v hv => ?_⟩
  · exact (DualValue.traced_of_ofExpr htable (evaluate_eq_ok h)).2.eq_iff
  · have hkind : x.kind = .divisionByZero := by
      cases x with
      | dividedByZero => rfl
      | _ => cases hshadow
    rcases DualValue.dividedByZero_of_evaluate h hkind with ⟨v, p, hv, -, rfl⟩ | ⟨rfl, -⟩
    · cases hshadow
      exact (DualValue.traced_of_ofExpr htable hv).2.eq_iff
    · cases hshadow
  · obtain ⟨n, hn, hvalue⟩ := hreaches.exists_node v hv
    exact ⟨n, hn, hvalue, fun _ => (DualValue.traced_of_ofExpr htable hvalue).2.eq_iff⟩

/-- `max(0.1 + 0.2, -(1 / 0)) * pi`. -/
def unselectedFault : Expr :=
  .binary "*"
    (.call "max" [.binary "+" (.number "0.1" 4) (.number "0.2" 10) 8,
      .unary "-" (.binary "/" (.number "1" 18) (.number "0" 22) 20) 15] 0)
    (.name "pi" 28) 26

/-- The trail of `max(0.1 + 0.2, -(1 / 0)) * pi`. -/
def unselectedTrail : List RoundingEvent := [
  ⟨.literal (some "0.1"), .ofBits 0x3FB999999999999A, .inexact⟩,
  ⟨.literal (some "0.2"), .ofBits 0x3FC999999999999A, .inexact⟩,
  ⟨.operation .add (.ofBits 0x3FB999999999999A) (.ofBits 0x3FC999999999999A),
    .ofBits 0x3FD3333333333334, .inexact⟩,
  ⟨.operation .div .one (.zero false), .infinity false, .divideByZero⟩,
  ⟨.operation .mul (.ofBits 0x3FD3333333333334) (.ofBits 0x400921FB54442D18),
    .ofBits 0x3FEE28C731EB6951, .inexact⟩]

/-- The division by zero stands where the walk comes to it, although `max` selects the sum. -/
theorem history_unselectedFault :
    SymbolTable.default.functions = SymbolTable.default.functions ∧
    ∃ x shadow, evaluate {} unselectedFault = .error (.error x) ∧ x.shadow? = some shadow ∧
      DualValue.History {} unselectedFault.postorder unselectedTrail := by
  have hfault : evaluate {} unselectedFault =
      .error (.error (.dividedByZero 20 ⟨.ofBits 0x3FEE28C731EB6951, unselectedTrail⟩)) := by
    decide +kernel
  exact ⟨rfl, _, _, hfault, rfl, ((evaluate_history {} rfl _).2.1 _ _ hfault rfl _).2 rfl⟩

end Roundoff
