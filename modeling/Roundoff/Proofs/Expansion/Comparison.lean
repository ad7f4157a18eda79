import Roundoff.Proofs.Expansion.Agreement

/-! # The search for a difference is long enough

The unending form of an expansion that is not truncated is periodic from its first period on, with
period one where zeros follow (`unending_periodic`).  Two such forms that agree on twice the longer
of the two finite forms agree for ever (`unending_eq_of_bound`): beyond that a character is traced
back by the period of one form and by that of the other, in either order, to the same character.
-/
namespace Roundoff.Expansion

open Numeral (natural Digits)

/-! ## Periodic sequences -/

/-- A sequence repeats itself with period `p` from `s` on. -/
def PeriodicFrom {α : Type} (f : ℕ → α) (s p : ℕ) : Prop :=
  ∀ i, s ≤ i → f (i + p) = f i

/-- **Two periodic sequences that agree until both periods are over agree for ever.** -/
theorem PeriodicFrom.eq_of_agree {α : Type} {f g : ℕ → α} {s t p q : ℕ} (hf : PeriodicFrom f s p)
    (hg : PeriodicFrom g t q) (hp : 0 < p) (hq : 0 < q)
    (h : ∀ i < max s t + p + q, f i = g i) : f = g := by
  funext i
  induction i using Nat.strong_induction_on with
  | _ i ih =>
    by_cases hi : i < max s t + p + q
    · exact h i hi
    · obtain ⟨j, rfl⟩ : ∃ j, i = j + p + q := ⟨i - p - q, by omega⟩
      have hshift : j + p + q = j + q + p := by omega
      calc f (j + p + q) = f (j + q) := by rw [hshift, hf _ (by omega)]
        _ = g (j + q) := ih _ (by omega)
        _ = g j := hg _ (by omega)
        _ = f j := (ih _ (by omega)).symm
        _ = f (j + p) := (hf _ (by omega)).symm
        _ = g (j + p) := ih _ (by omega)
        _ = g (j + p + q) := (hg _ (by omega)).symm

/-! ## The unending form -/

/-- The digit with number `i` after the point: a fixed one, or one of the period repeated for ever,
or zero where there is no period. -/
def fractionDigit (e : Expansion) (i : ℕ) : ℕ :=
  if i < e.fixed.length then e.fixed.getD i 0
  else e.repeating.getD ((i - e.fixed.length) % e.repeating.length) 0

/-- The sign, the whole part and the point. -/
def front (e : Expansion) : List Char :=
  e.minus ++ Numeral.integer e.whole ++ ['.']

/-- **The unending form of an expansion**, character by character. -/
def unending (e : Expansion) (i : ℕ) : Char :=
  e.front[i]?.getD (Nat.digitChar (e.fractionDigit (i - e.front.length)))

/-- An expansion that is not truncated, with a whole part that is not negative and with decimal
digits. -/
structure Complete (e : Expansion) : Prop where
  ended : e.truncated = false
  whole_nonneg : 0 ≤ e.whole
  digit_lt : ∀ d ∈ e.fixed ++ e.repeating, d < 10

/-- The number of characters of the whole part. -/
def width (e : Expansion) : ℕ := (Numeral.integer e.whole).length

section
variable {e : Expansion}

theorem width_pos (e : Expansion) : 0 < e.width :=
  List.length_pos_iff.2 (integer_ne_nil e.whole)

theorem length_front (e : Expansion) : e.front.length = e.minus.length + e.width + 1 := by
  rw [front, List.length_append, List.length_append, List.length_singleton, width]

theorem length_eq (e : Expansion) :
    e.length = e.width + 1 + e.fixed.length + e.repeating.length := rfl

theorem unending_of_lt {i : ℕ} (h : i < e.front.length) : e.unending i = e.front[i] := by
  rw [unending, List.getElem?_eq_getElem h, Option.getD_some]

theorem unending_of_le {i : ℕ} (h : e.front.length ≤ i) :
    e.unending i = Nat.digitChar (e.fractionDigit (i - e.front.length)) := by
  rw [unending, List.getElem?_eq_none h, Option.getD_none]

theorem fractionDigit_periodic (e : Expansion) :
    PeriodicFrom e.fractionDigit e.fixed.length (max 1 e.repeating.length) := by
  intro i hi
  rw [fractionDigit, fractionDigit, if_neg (by omega), if_neg (not_lt.2 hi)]
  by_cases hnil : e.repeating = []
  · rw [hnil, List.getD_nil, List.getD_nil]
  · have hpos : 1 ≤ e.repeating.length := List.length_pos_iff.2 hnil
    rw [max_eq_right hpos, Nat.sub_add_comm hi, Nat.add_mod_right]

theorem unending_periodic (e : Expansion) :
    PeriodicFrom e.unending (e.front.length + e.fixed.length) (max 1 e.repeating.length) := by
  intro i hi
  rw [unending_of_le (by omega), unending_of_le (by omega), Nat.sub_add_comm (by omega),
    e.fractionDigit_periodic _ (by omega)]

/-- The digits behind the fixed ones. -/
theorem Complete.getElem?_continuation (h : e.Complete) {m i : ℕ} (hi : i < m) :
    (e.continuation m)[i]? =
      some (Nat.digitChar (e.repeating.getD (i % e.repeating.length) 0)) := by
  have hdigits : digitChars e.repeating = e.repeating.map Nat.digitChar :=
    digitChars_eq_map fun d hd => h.digit_lt d (List.mem_append_right _ hd)
  by_cases hnil : e.repeating = []
  · have hrepeating : e.isRepeating = false := by rw [isRepeating, hnil]; rfl
    rw [continuation, if_neg (by rw [hrepeating]; decide), hnil, List.getElem?_replicate_of_lt hi]
    rfl
  · have hrepeating : e.isRepeating = true := by simpa [isRepeating] using hnil
    have hlt : i % e.repeating.length < e.repeating.length :=
      Nat.mod_lt _ (List.length_pos_iff.2 hnil)
    rw [continuation, if_pos hrepeating, hdigits]
    simp [hi, Array.getD, hlt]

/-- The characters that are compared are those of the unending form behind the sign. -/
theorem Complete.getElem?_symbols (h : e.Complete) {m i : ℕ} (hi : i < m) :
    (e.symbols m)[i]? = some (e.unending (e.minus.length + i)) := by
  have hdigits : digitChars e.fixed = e.fixed.map Nat.digitChar :=
    digitChars_eq_map fun d hd => h.digit_lt d (List.mem_append_left _ hd)
  have hfront : e.minus ++ (Numeral.integer e.whole ++ '.' :: digitChars e.fixed ++
      e.continuation m) = e.front ++ (e.fixed.map Nat.digitChar ++ e.continuation m) := by
    rw [front, hdigits]
    simp
  have hlookup : (e.symbols m)[i]? =
      (e.front ++ (e.fixed.map Nat.digitChar ++ e.continuation m))[e.minus.length + i]? := by
    rw [← hfront, List.getElem?_append_right (Nat.le_add_right _ _), Nat.add_sub_cancel_left,
      symbols, List.getElem?_take_of_lt hi]
  rw [hlookup]
  by_cases hin : e.minus.length + i < e.front.length
  · rw [List.getElem?_append_left hin, unending_of_lt hin, List.getElem?_eq_getElem hin]
  · have hle := not_lt.1 hin
    have hwidth := e.length_front
    rw [List.getElem?_append_right hle, unending_of_le hle, fractionDigit]
    generalize hj : e.minus.length + i - e.front.length = j
    split
    · rename_i hfixed
      rw [List.getElem?_append_left (by rwa [List.length_map]), List.getElem?_map,
        List.getD_eq_getElem?_getD, List.getElem?_eq_getElem hfixed]
      rfl
    · rename_i hbeyond
      rw [List.getElem?_append_right (by rw [List.length_map]; exact not_lt.1 hbeyond),
        List.length_map, h.getElem?_continuation (by omega)]

end

/-! ## Comparing two expansions -/

section
variable {x y : Expansion}

theorem Complete.digits_whole (h : x.Complete) : Digits (Numeral.integer x.whole) := by
  obtain ⟨k, hk⟩ := Int.eq_ofNat_of_zero_le h.whole_nonneg
  rw [hk]
  exact Numeral.digits_natural k

theorem Complete.fractionDigit_lt (h : x.Complete) (i : ℕ) : x.fractionDigit i < 10 := by
  have hgetD : ∀ ds : List ℕ, (∀ d ∈ ds, d < 10) → ∀ k, ds.getD k 0 < 10 := by
    intro ds hds k
    by_cases hk : k < ds.length
    · rw [List.getD_eq_getElem _ _ hk]
      exact hds _ (List.getElem_mem hk)
    · rw [List.getD_eq_default _ _ (not_lt.1 hk)]
      decide
  rw [fractionDigit]
  split
  · exact hgetD _ (fun d hd => h.digit_lt d (List.mem_append_left _ hd)) _
  · exact hgetD _ (fun d hd => h.digit_lt d (List.mem_append_right _ hd)) _

/-- Behind the sign the unending form has digits, but for the point. -/
theorem Complete.isAsciiDigit_unending (h : x.Complete) {i : ℕ} (hsign : x.minus.length ≤ i)
    (hpoint : i ≠ x.minus.length + x.width) : Text.isAsciiDigit (x.unending i) = true := by
  by_cases hin : i < x.front.length
  · have hwhole : i - x.minus.length < (Numeral.integer x.whole).length := by
      rw [length_front, width] at hin
      rw [width] at hpoint
      omega
    have hlookup : x.front[i] = (Numeral.integer x.whole)[i - x.minus.length] := by
      simp only [front]
      rw [List.getElem_append_left (by rw [List.length_append]; omega),
        List.getElem_append_right hsign]
    rw [unending_of_lt hin, hlookup]
    exact h.digits_whole.all _ (List.getElem_mem hwhole)
  · have hdigit := h.fractionDigit_lt (i - x.front.length)
    rw [unending_of_le (not_lt.1 hin)]
    generalize x.fractionDigit (i - x.front.length) = d at hdigit
    interval_cases d <;> rfl

theorem unending_point (e : Expansion) : e.unending (e.minus.length + e.width) = '.' := by
  have hin : e.minus.length + e.width < e.front.length := by
    rw [length_front]
    exact Nat.lt_succ_self _
  rw [unending_of_lt hin]
  simp only [front]
  rw [List.getElem_append_right (by rw [List.length_append, width])]
  simp

theorem unending_minus {e : Expansion} {i : ℕ} (h : i < e.minus.length) : e.unending i = '-' := by
  cases hnegative : e.negative with
  | false =>
    rw [minus, hnegative] at h
    exact absurd h (Nat.not_lt_zero i)
  | true =>
    have hminus : e.minus = ['-'] := by rw [minus, if_pos hnegative]
    rw [hminus] at h
    rw [Nat.lt_one_iff.1 h, unending, front, hminus]
    rfl

theorem length_minus {e : Expansion} (h : e.negative = true) : e.minus.length = 1 := by
  rw [minus, if_pos h]
  rfl

/-- Only a negative expansion starts with the sign. -/
theorem Complete.negative_of_unending (h : x.Complete) (hx : x.unending 0 = '-') :
    x.negative = true := by
  by_contra hpositive
  have hminus : x.minus.length = 0 := by rw [minus, if_neg hpositive]; rfl
  have hdigit := h.isAsciiDigit_unending (i := 0) (by omega) (by have := x.width_pos; omega)
  rw [hx] at hdigit
  cases hdigit

theorem negative_eq_of_unending (hx : x.Complete) (hy : y.Complete)
    (h : x.unending 0 = y.unending 0) : x.negative = y.negative := by
  rw [Bool.eq_iff_iff]
  constructor
  · intro hnegative
    exact hy.negative_of_unending (h ▸ unending_minus (by rw [length_minus hnegative]; decide))
  · intro hnegative
    exact hx.negative_of_unending (h ▸ unending_minus (by rw [length_minus hnegative]; decide))

/-- The point is found where the whole part ends. -/
theorem width_eq_of_unending (hx : x.Complete) (hsign : x.negative = y.negative)
    (h : x.unending = y.unending) : x.width = y.width := by
  have hminus : x.minus = y.minus := by rw [minus, minus, hsign]
  by_contra hne
  have hdigit := hx.isAsciiDigit_unending (i := y.minus.length + y.width)
    (by rw [hminus]; exact Nat.le_add_right _ _) (by rw [hminus]; omega)
  rw [h, unending_point] at hdigit
  cases hdigit

/-- **The number of characters compared suffices.** -/
theorem unending_eq_of_bound (hsign : x.negative = y.negative)
    (h : ∀ i < x.minus.length + bound x y, x.unending i = y.unending i) :
    x.unending = y.unending := by
  have hminus : x.minus = y.minus := by rw [minus, minus, hsign]
  have hxfront := x.length_front
  have hyfront := y.length_front
  have hxwidth := x.width_pos
  have hywidth := y.width_pos
  have hxlength := x.length_eq
  have hylength := y.length_eq
  have hxbound : x.length ≤ Nat.max x.length y.length := Nat.le_max_left _ _
  have hybound : y.length ≤ Nat.max x.length y.length := Nat.le_max_right _ _
  refine x.unending_periodic.eq_of_agree y.unending_periodic (by omega) (by omega) ?_
  intro i hi
  refine h i (hi.trans_le ?_)
  rw [← hminus] at hyfront
  rw [bound]
  omega

theorem firstDifference?_self (cs : List Char) : firstDifference? cs cs = none := by
  induction cs with
  | nil => rfl
  | cons c cs ih => rw [firstDifference?, if_pos rfl, ih, Option.map_none]

theorem commonPrefixLength?_of_negative_ne (h : x.negative ≠ y.negative) :
    x.commonPrefixLength? y = some 0 := by
  rw [commonPrefixLength?]
  dsimp only
  rw [if_pos h]

theorem commonPrefixLength?_of_width_ne (hsign : x.negative = y.negative)
    (h : x.width ≠ y.width) : x.commonPrefixLength? y = some x.minus.length := by
  have hne : ¬ (x = y ∧ (!x.truncated) = true) := by
    rintro ⟨rfl, -⟩
    exact h rfl
  rw [width, width] at h
  rw [commonPrefixLength?]
  dsimp only
  rw [if_neg (not_not.2 hsign), if_neg hne, if_pos h, minus]
  cases x.negative <;> rfl

/-- Whole parts of one width are compared character by character. -/
theorem commonPrefixLength?_of_width_eq (hx : x.Complete) (hy : y.Complete)
    (hsign : x.negative = y.negative) (hwidth : x.width = y.width) :
    x.commonPrefixLength? y =
      (firstDifference? (x.symbols (bound x y)) (y.symbols (bound x y))).map
        (· + x.minus.length) := by
  have hminus : (if x.negative then 1 else 0) = x.minus.length := by
    rw [minus]
    split <;> rfl
  rw [commonPrefixLength?, hminus, if_neg (not_not.2 hsign)]
  split
  · rename_i hsame
    rw [← hsame.1, firstDifference?_self]
    rfl
  · rw [width, width] at hwidth
    rw [if_neg (not_not.2 hwidth), hx.ended, hy.ended]
    dsimp only
    rw [← bound]
    split
    · rename_i i hi
      rw [hi]
      rfl
    · rename_i hnone
      rw [hnone]
      rfl

/-- Equal characters behind the sign are equal characters of the unending forms. -/
theorem unending_eq_of_symbols (hx : x.Complete) (hy : y.Complete)
    (hsign : x.negative = y.negative) {m n : ℕ} (hn : n ≤ m)
    (h : (x.symbols m).take n = (y.symbols m).take n) :
    ∀ i < n + x.minus.length, x.unending i = y.unending i := by
  have hminus : x.minus = y.minus := by rw [minus, minus, hsign]
  intro i hi
  by_cases hin : i < x.minus.length
  · rw [unending_minus hin, unending_minus (hminus ▸ hin)]
  · obtain ⟨j, rfl⟩ := Nat.exists_eq_add_of_le (not_lt.1 hin)
    have hchar := congrArg (·[j]?) h
    simp only [List.getElem?_take_of_lt (show j < n by omega)] at hchar
    rw [hx.getElem?_symbols (by omega), hy.getElem?_symbols (by omega), ← hminus] at hchar
    exact Option.some.inj hchar

theorem commonPrefixLength?_eq_none (hx : x.Complete) (hy : y.Complete)
    (h : x.commonPrefixLength? y = none) : x.unending = y.unending := by
  by_cases hsign : x.negative = y.negative
  · by_cases hwidth : x.width = y.width
    · rw [commonPrefixLength?_of_width_eq hx hy hsign hwidth, Option.map_eq_none_iff] at h
      have hsymbols := eq_of_firstDifference?_eq_none h
        ((length_symbols _ _).trans (length_symbols _ _).symm)
      refine unending_eq_of_bound hsign fun i hi => ?_
      exact unending_eq_of_symbols hx hy hsign le_rfl (by rw [hsymbols]) i (by omega)
    · rw [commonPrefixLength?_of_width_ne hsign hwidth] at h
      cases h
  · rw [commonPrefixLength?_of_negative_ne hsign] at h
    cases h

theorem commonPrefixLength?_eq_some (hx : x.Complete) (hy : y.Complete)
    (hsign : x.negative = y.negative) (hwidth : x.width = y.width) {n : ℕ}
    (h : x.commonPrefixLength? y = some n) :
    (∀ i < n, x.unending i = y.unending i) ∧ x.unending n ≠ y.unending n := by
  have hminus : x.minus = y.minus := by rw [minus, minus, hsign]
  rw [commonPrefixLength?_of_width_eq hx hy hsign hwidth] at h
  obtain ⟨i, hi, rfl⟩ := Option.map_eq_some_iff.1 h
  obtain ⟨hlt, htake, hne⟩ := firstDifference?_eq_some hi
  rw [length_symbols] at hlt
  rw [hx.getElem?_symbols hlt, hy.getElem?_symbols hlt, ← hminus] at hne
  refine ⟨unending_eq_of_symbols hx hy hsign hlt.le htake, fun heq => hne ?_⟩
  rw [add_comm x.minus.length i, heq]

/-- **The comparison of two expansions decides whether their unending forms differ, and where.**
There is no answer exactly when they are the same for ever; with different signs the answer is zero,
with whole parts of different widths it is the width of the sign, and otherwise the number of the
first character in which they differ.  So no difference lies beyond the characters inspected. -/
theorem commonPrefixLength?_decides (hx : x.Complete) (hy : y.Complete) :
    (x.commonPrefixLength? y = none ↔ x.unending = y.unending) ∧
      (x.negative ≠ y.negative → x.commonPrefixLength? y = some 0) ∧
      (x.negative = y.negative → x.width ≠ y.width →
        x.commonPrefixLength? y = some x.minus.length) ∧
      (x.negative = y.negative → x.width = y.width → ∀ n, x.commonPrefixLength? y = some n ↔
        (∀ i < n, x.unending i = y.unending i) ∧ x.unending n ≠ y.unending n) ∧
      ((∀ i < x.minus.length + 2 * max x.length y.length, x.unending i = y.unending i) →
        x.unending = y.unending) := by
  have hnone : x.commonPrefixLength? y = none ↔ x.unending = y.unending := by
    refine ⟨commonPrefixLength?_eq_none hx hy, fun heq => ?_⟩
    have hsign := negative_eq_of_unending hx hy (congrFun heq 0)
    have hwidth := width_eq_of_unending hx hsign heq
    refine Option.eq_none_iff_forall_ne_some.2 fun n hn => ?_
    exact (commonPrefixLength?_eq_some hx hy hsign hwidth hn).2 (congrFun heq n)
  refine ⟨hnone, commonPrefixLength?_of_negative_ne, commonPrefixLength?_of_width_ne, ?_, ?_⟩
  · intro hsign hwidth n
    refine ⟨commonPrefixLength?_eq_some hx hy hsign hwidth, fun ⟨hbefore, hat⟩ => ?_⟩
    cases hcommon : x.commonPrefixLength? y with
    | none => exact absurd (congrFun (hnone.1 hcommon) n) hat
    | some m =>
      obtain ⟨hbefore', hat'⟩ := commonPrefixLength?_eq_some hx hy hsign hwidth hcommon
      rcases lt_trichotomy m n with hlt | rfl | hgt
      · exact absurd (hbefore m hlt) hat'
      · rfl
      · exact absurd (hbefore' n hgt) hat
  · intro h
    have hbound : bound x y = 2 * max x.length y.length := rfl
    have hlength := x.length_eq
    have hmax := Nat.le_max_left x.length y.length
    refine unending_eq_of_bound (negative_eq_of_unending hx hy (h 0 ?_)) h
    omega

/-- Twelve hundredths for ever, with a period of two digits behind two fixed ones and with a period
of four digits: neither is in its shortest form, and they are the same. -/
theorem commonPrefixLength?_of_periods :
    (⟨false, 0, [1, 2], [1, 2], false⟩ : Expansion).Complete ∧
      (⟨false, 0, [], [1, 2, 1, 2], false⟩ : Expansion).Complete ∧
      (⟨false, 0, [1, 2], [1, 2], false⟩ : Expansion).unending =
        (⟨false, 0, [], [1, 2, 1, 2], false⟩ : Expansion).unending := by
  have hx : (⟨false, 0, [1, 2], [1, 2], false⟩ : Expansion).Complete :=
    ⟨rfl, le_rfl, by decide⟩
  have hy : (⟨false, 0, [], [1, 2, 1, 2], false⟩ : Expansion).Complete :=
    ⟨rfl, le_rfl, by decide⟩
  exact ⟨hx, hy, (commonPrefixLength?_decides hx hy).1.1 (by decide +kernel)⟩

end

end Roundoff.Expansion
