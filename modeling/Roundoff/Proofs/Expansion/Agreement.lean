import Roundoff.Proofs.Expansion.Rendering

/-! # How far an approximation is right

An approximation without a period is compared with the expansion of a rational, and the part of its
text on which they agree is shown as correct.  That part begins the rendering of the rational, with
one exception: a terminating approximation that agrees with all known digits of a truncated
expansion is filled up with zeros, which the unknown digits need not be (`shown`).
-/
namespace Roundoff.Expansion

open Numeral (natural)

/-! ## Comparing two texts -/

theorem firstDifference?_eq_some {as bs : List Char} {i : ℕ} (h : firstDifference? as bs = some i) :
    i < as.length ∧ as.take i = bs.take i ∧ as[i]? ≠ bs[i]? := by
  induction as generalizing bs i with
  | nil => cases h
  | cons a as ih =>
    cases bs with
    | nil => cases h
    | cons b bs =>
      rw [firstDifference?] at h
      split at h
      · rename_i hab
        subst hab
        obtain ⟨j, hj, rfl⟩ := Option.map_eq_some_iff.1 h
        obtain ⟨hlt, htake, hne⟩ := ih hj
        refine ⟨Nat.succ_lt_succ hlt, ?_, hne⟩
        rw [List.take_succ_cons, List.take_succ_cons, htake]
      · rename_i hab
        cases h
        exact ⟨Nat.succ_pos _, rfl, fun heq => hab (Option.some.inj heq)⟩

theorem eq_of_firstDifference?_eq_none {as bs : List Char} (h : firstDifference? as bs = none)
    (hlength : as.length = bs.length) : as = bs := by
  induction as generalizing bs with
  | nil => exact (List.length_eq_zero_iff.1 hlength.symm).symm
  | cons a as ih =>
    cases bs with
    | nil => cases hlength
    | cons b bs =>
      rw [firstDifference?] at h
      split at h
      · rename_i hab
        rw [hab, ih (Option.map_eq_none_iff.1 h) (Nat.succ.inj hlength)]
      · cases h

/-- The sign of an expansion, written. -/
def minus (e : Expansion) : List Char := if e.negative then ['-'] else []

/-- The number of characters in which two expansions are compared. -/
def bound (x y : Expansion) : ℕ := 2 * Nat.max x.length y.length

/-- **How the comparison of two expansions ends**: with different signs, with whole parts of
different widths, at a character, after all characters although digits are unknown, or with the
answer that there is no difference. -/
inductive Common (x y : Expansion) : Option ℕ → Prop
  | signs : Common x y (some 0)
  | widths : x.negative = y.negative → Common x y (some x.minus.length)
  | differ {i : ℕ} : x.negative = y.negative →
      (Numeral.integer x.whole).length = (Numeral.integer y.whole).length → i < bound x y →
      (x.symbols (bound x y)).take i = (y.symbols (bound x y)).take i →
      (x.symbols (bound x y))[i]? ≠ (y.symbols (bound x y))[i]? →
      Common x y (some (i + x.minus.length))
  | agree : x.negative = y.negative →
      (Numeral.integer x.whole).length = (Numeral.integer y.whole).length →
      x.symbols (bound x y) = y.symbols (bound x y) →
      Common x y (some (bound x y + x.minus.length))
  | same : x.negative = y.negative → x.symbols (bound x y) = y.symbols (bound x y) →
      x.truncated = false → y.truncated = false → Common x y none

theorem length_symbols (e : Expansion) (m : ℕ) : (e.symbols m).length = m := by
  have hcontinuation : (e.continuation m).length = m := by
    rw [continuation]
    split <;> simp
  rw [symbols, List.length_take, List.length_append, hcontinuation]
  omega

theorem common (x y : Expansion) : Common x y (x.commonPrefixLength? y) := by
  have hminus : (if x.negative then 1 else 0) = x.minus.length := by
    rw [minus]
    split <;> rfl
  rw [commonPrefixLength?, hminus]
  split
  · exact .signs
  · rename_i hsign
    have hsign : x.negative = y.negative := by simpa using hsign
    split
    · rename_i hsame
      obtain ⟨rfl, htruncated⟩ := hsame
      have hend : x.truncated = false := by simpa using htruncated
      exact .same rfl rfl hend hend
    · split
      · exact .widths hsign
      · rename_i hwidth
        have hwidth := not_not.1 hwidth
        dsimp only
        rw [← bound]
        split
        · rename_i i hi
          obtain ⟨hlt, htake, hne⟩ := firstDifference?_eq_some hi
          exact .differ hsign hwidth (hlt.trans_eq (length_symbols _ _)) htake hne
        · rename_i hnone
          have heq := eq_of_firstDifference?_eq_none hnone
            ((length_symbols _ _).trans (length_symbols _ _).symm)
          split
          · exact .agree hsign hwidth heq
          · rename_i hends
            have hends : x.truncated = false ∧ y.truncated = false := by simpa using hends
            exact .same hsign heq hends.1 hends.2

/-! ## Approximations -/

/-- An expansion without a period, of at most `n` digits. -/
structure Plain (e : Expansion) (n : ℕ) : Prop where
  repeating : e.repeating = []
  digit_lt : ∀ q ∈ e.fixed, q < 10
  length_le : e.fixed.length ≤ n

/-- The expansion of a fraction over a power of ten has no period. -/
theorem plain_ofRat {y : ℚ} {c : ℤ} {m : ℕ} (h : y = c / 10 ^ m) (n : ℕ) : (ofRat y n).Plain n := by
  have hdvd : y.den ∣ 10 ^ m := by
    have hden : ((Rat.divInt c (10 ^ m : ℕ)).den : ℤ) ∣ (10 ^ m : ℕ) := Rat.den_dvd _ _
    rw [Rat.divInt_eq_div] at hden
    push_cast at hden
    rw [← h] at hden
    exact_mod_cast hden
  have hdivided := divided_ofRat y n
  exact ⟨hdivided.repeating_eq_nil hdvd, hdivided.digit_lt y.den_pos, hdivided.length_fixed_le⟩

/-- The unsigned text of an expansion up to its last fixed digit, with the point. -/
def body (e : Expansion) : List Char :=
  Numeral.integer e.whole ++ '.' :: digitChars e.fixed

theorem take_padded (l : List Char) (m : ℕ) (hle : l.length ≤ m) :
    padZerosRight m l = (l ++ List.replicate m '0').take m := by
  rw [padZerosRight, List.take_append, List.take_of_length_le hle, List.take_replicate,
    Nat.min_eq_left (Nat.sub_le _ _)]

section
variable {e t : Expansion} {n m : ℕ} (h : e.Plain n)
include h

theorem Plain.length_body : e.body.length = e.length := by
  simp only [body, length, digitChars_eq_map h.digit_lt, h.repeating, List.length_append,
    List.length_cons, List.length_map, List.length_nil]
  omega

theorem Plain.symbols_eq (m : ℕ) : e.symbols m = (e.body ++ List.replicate m '0').take m := by
  rw [symbols, continuation, isRepeating, h.repeating]
  rfl

theorem Plain.chars_eq : e.chars = e.minus ++ if e.isInteger then Numeral.integer e.whole
    else e.body ++ if e.truncated then "...".toList else [] := by
  have hrepeating : e.isRepeating = false := by rw [isRepeating, h.repeating]; rfl
  have hfraction : e.fractionChars = digitChars e.fixed ++ if e.truncated then "...".toList
      else [] := by
    rw [fractionChars, hrepeating]
    rfl
  have hdigits := digitChars_eq_map h.digit_lt
  rw [chars, hfraction, ← minus, body]
  by_cases hinteger : e.isInteger = true
  · have hparts : (e.fixed = [] ∧ e.repeating = []) ∧ e.truncated = false := by
      simpa [isInteger] using hinteger
    rw [if_pos hinteger, hparts.1.1, hparts.2]
    simp [digitChars]
  · rw [if_neg hinteger, hdigits]
    have hnonempty : (e.fixed.map Nat.digitChar ++ if e.truncated then "...".toList
        else []).isEmpty = false := by
      simp only [isInteger, h.repeating] at hinteger
      cases htruncated : e.truncated <;> simp_all
    rw [hnonempty]
    simp

/-- A truncated approximation shows no more than the digits it has. -/
theorem Plain.splitCorrect_of_truncated (hcommon : e.commonPrefixLength? t = some m)
    (htruncated : e.truncated = true) :
    (e.splitCorrect t).1.toList = (e.minus ++ e.body).take m := by
  have hinteger : e.isInteger = false := by simp [isInteger, htruncated]
  have hchars := h.chars_eq
  rw [hinteger, htruncated, if_neg Bool.false_ne_true, if_pos rfl, ← List.append_assoc] at hchars
  have hlength : e.chars.length - 3 = (e.minus ++ e.body).length := by
    rw [hchars, List.length_append]
    rfl
  rw [splitCorrect, hcommon]
  dsimp only
  rw [htruncated, if_pos rfl, String.toList_ofList, hlength, hchars,
    List.take_append_of_le_length (Nat.min_le_right _ _)]
  exact List.take_eq_take_min.symm

/-- A terminating approximation is filled up with zeros, behind a point if it is an integer. -/
theorem Plain.splitCorrect_of_ended (hcommon : e.commonPrefixLength? t = some m)
    (hm : m ≠ (e.minus ++ Numeral.integer e.whole).length) (hend : e.truncated = false) :
    (e.splitCorrect t).1.toList =
      (e.minus ++ (e.body ++ List.replicate m '0')).take m := by
  have hchars := h.chars_eq
  rw [hend, if_neg Bool.false_ne_true, List.append_nil] at hchars
  rw [splitCorrect, hcommon]
  dsimp only
  rw [hend, if_neg Bool.false_ne_true, ← List.append_assoc]
  by_cases hinteger : e.isInteger = true
  · have hbody : e.body = Numeral.integer e.whole ++ ['.'] := by
      have hfixed : e.fixed = [] := by
        simp only [isInteger, Bool.and_eq_true, List.isEmpty_iff] at hinteger
        exact hinteger.1.1
      rw [body, hfixed]
      rfl
    rw [if_pos hinteger] at hchars
    rw [hchars, if_pos hinteger, hbody, ← List.append_assoc]
    split
    · rename_i hlt
      rw [String.toList_ofList, List.append_assoc, List.take_append_of_le_length hlt.le]
    · rename_i hge
      rw [String.toList_ofList]
      refine take_padded _ _ ?_
      rw [List.length_append, List.length_singleton]
      omega
  · rw [if_neg hinteger] at hchars
    rw [hchars, if_neg hinteger]
    split
    · rename_i hlt
      rw [String.toList_ofList, List.take_append_of_le_length hlt.le]
    · rename_i hge
      rw [String.toList_ofList]
      exact take_padded _ _ (not_lt.1 hge)

/-- The digits shown as correct: as many characters as agree, zeros standing behind the end of a
terminating approximation. -/
theorem Plain.splitCorrect_of_some (hcommon : e.commonPrefixLength? t = some m)
    (hm : m ≠ (e.minus ++ Numeral.integer e.whole).length) :
    (e.splitCorrect t).1.toList =
      (e.minus ++ (e.body ++ if e.truncated then [] else List.replicate m '0')).take m := by
  by_cases htruncated : e.truncated = true
  · rw [h.splitCorrect_of_truncated hcommon htruncated, if_pos htruncated, List.append_nil]
  · rw [h.splitCorrect_of_ended hcommon hm (Bool.eq_false_of_not_eq_true htruncated),
      if_neg htruncated]

/-- An approximation that is not cut anywhere is a beginning of its unending form. -/
theorem Plain.splitCorrect_of_none (hcommon : e.commonPrefixLength? t = none)
    (hend : e.truncated = false) (hle : e.length ≤ m) :
    (e.splitCorrect t).1.toList <+: e.minus ++ e.symbols m := by
  have hbody : e.body <+: e.symbols m := by
    rw [h.symbols_eq, List.take_append, List.take_of_length_le (h.length_body.le.trans hle)]
    exact List.prefix_append _ _
  have hwhole : Numeral.integer e.whole <+: e.body := List.prefix_append _ _
  rw [splitCorrect, hcommon, text, String.toList_ofList, h.chars_eq, hend]
  refine (List.prefix_append_right_inj _).2 ?_
  split
  · exact hwhole.trans hbody
  · rw [if_neg Bool.false_ne_true, List.append_nil]
    exact hbody

end

/-! ## Approximations of a rational -/

section
variable {e : Expansion} {x : ℚ} {n : ℕ}

theorem minus_ofRat (x : ℚ) (n : ℕ) : (ofRat x n).minus = signChars x := by
  have hdivided := divided_ofRat x n
  rw [minus, signChars]
  generalize ofRat x n = e at hdivided
  cases hdivided <;> simp

/-- Zeros behind a text make no difference beyond the characters looked at. -/
theorem take_append_zeros (l : List Char) {i m : ℕ} (h : i ≤ m) :
    (l ++ List.replicate m '0').take i = (l ++ List.replicate i '0').take i := by
  rw [List.take_append, List.take_append, List.take_replicate, List.take_replicate]
  congr 2
  omega

/-- Both unending forms have the point behind the whole part. -/
theorem symbols_point {m : ℕ} (e : Expansion) (hm : (Numeral.integer e.whole).length < m) :
    (e.symbols m)[(Numeral.integer e.whole).length]? = some '.' := by
  rw [symbols, List.getElem?_take_of_lt hm, List.append_assoc,
    List.getElem?_append_right le_rfl, Nat.sub_self]
  rfl

theorem length_whole_lt_bound (e t : Expansion) :
    (Numeral.integer e.whole).length < bound e t := by
  have hle : e.length ≤ Nat.max e.length t.length := Nat.le_max_left _ _
  have hlt : (Numeral.integer e.whole).length < e.length := by
    rw [length]
    omega
  rw [bound]
  omega

theorem integer_ne_nil (i : ℤ) : Numeral.integer i ≠ [] := by
  cases i with
  | ofNat k => exact (Numeral.digits_natural k).ne_nil
  | negSucc k => exact List.cons_ne_nil _ _

/-- The characters on which the unending forms agree. -/
theorem Plain.splitCorrect_agree {t : Expansion} (h : e.Plain n) {i : ℕ}
    (hcommon : e.commonPrefixLength? t = some (i + e.minus.length)) (hi : i ≤ bound e t)
    (hwhole : i ≠ (Numeral.integer e.whole).length)
    (htake : (e.symbols (bound e t)).take i = (t.symbols (bound e t)).take i) :
    (e.splitCorrect t).1.toList <+: e.minus ++ t.symbols (bound e t) := by
  have hm : i + e.minus.length ≠ (e.minus ++ Numeral.integer e.whole).length := by
    rw [List.length_append]
    omega
  rw [h.splitCorrect_of_some hcommon hm, add_comm i, List.take_length_add_append]
  refine (List.prefix_append_right_inj _).2 (List.IsPrefix.trans ?_ (List.take_prefix i _))
  rw [← htake, h.symbols_eq, List.take_take, Nat.min_eq_left hi, take_append_zeros _ hi]
  cases e.truncated with
  | true =>
    rw [if_pos rfl, List.append_nil, List.take_append]
    exact List.prefix_append _ _
  | false =>
    rw [if_neg Bool.false_ne_true, take_append_zeros _ (Nat.le_add_left i _)]

theorem minus_eq_signChars (h : e.negative = (ofRat x n).negative) : e.minus = signChars x := by
  rw [← minus_ofRat x n, minus, minus, h]

/-- A truncated approximation with a whole part of the right width shows no more digits than it
has. -/
theorem Plain.length_splitCorrect_le (h : e.Plain n) {m : ℕ}
    (hnegative : e.negative = (ofRat x n).negative)
    (hwidth : (Numeral.integer e.whole).length = (Numeral.integer (ofRat x n).whole).length)
    (hcommon : e.commonPrefixLength? (ofRat x n) = some m)
    (hm : m ≠ (e.minus ++ Numeral.integer e.whole).length) (htruncated : e.truncated = true) :
    (e.splitCorrect (ofRat x n)).1.toList.length ≤ (rendering x n).length := by
  have hfixed := h.length_le
  have hbody := h.length_body
  rw [h.splitCorrect_of_some hcommon hm, htruncated, if_pos rfl, List.append_nil,
    List.length_take, List.length_append, minus_eq_signChars hnegative, hbody, length, h.repeating,
    length_rendering, hwidth, integer_whole_ofRat, List.length_nil]
  omega

/-- **What is shown as correct begins the unending form of the expansion**, and a truncated
approximation shows no more digits than it has. -/
theorem Plain.splitCorrect_isPrefix (h : e.Plain n) (x : ℚ) :
    ∃ m, (e.splitCorrect (ofRat x n)).1.toList <+: signChars x ++ (ofRat x n).symbols m ∧
      (e.truncated = true →
        (e.splitCorrect (ofRat x n)).1.toList.length ≤ (rendering x n).length) := by
  refine ⟨bound e (ofRat x n), ?_⟩
  have hwidth := length_whole_lt_bound e (ofRat x n)
  have hpos : 0 < (Numeral.integer e.whole).length := List.length_pos_iff.2 (integer_ne_nil _)
  have hcases := common e (ofRat x n)
  generalize hcommon : e.commonPrefixLength? (ofRat x n) = answer at hcases
  cases hcases with
  | signs =>
    have hne : 0 ≠ (e.minus ++ Numeral.integer e.whole).length := by
      rw [List.length_append]
      omega
    rw [h.splitCorrect_of_some hcommon hne, List.take_zero]
    exact ⟨List.nil_prefix, fun _ => Nat.zero_le _⟩
  | widths hnegative =>
    have hne : e.minus.length ≠ (e.minus ++ Numeral.integer e.whole).length := by
      rw [List.length_append]
      omega
    rw [h.splitCorrect_of_some hcommon hne, List.take_left, minus_eq_signChars hnegative,
      length_rendering]
    exact ⟨List.prefix_append _ _, fun _ => by omega⟩
  | @differ i hnegative hwhole hi htake hdiffer =>
    have hne : i ≠ (Numeral.integer e.whole).length := by
      rintro rfl
      rw [symbols_point e hwidth, hwhole, symbols_point _ (hwhole ▸ hwidth)] at hdiffer
      exact hdiffer rfl
    rw [← minus_eq_signChars hnegative]
    refine ⟨h.splitCorrect_agree hcommon hi.le hne htake,
      h.length_splitCorrect_le hnegative hwhole hcommon ?_⟩
    rw [List.length_append]
    omega
  | agree hnegative hwhole hsymbols =>
    rw [← minus_eq_signChars hnegative]
    refine ⟨h.splitCorrect_agree hcommon le_rfl hwidth.ne' (by rw [hsymbols]),
      h.length_splitCorrect_le hnegative hwhole hcommon ?_⟩
    rw [List.length_append]
    omega
  | same hnegative hsymbols hend _ =>
    have hle : e.length ≤ Nat.max e.length (ofRat x n).length := Nat.le_max_left _ _
    rw [← minus_eq_signChars hnegative, ← hsymbols]
    refine ⟨h.splitCorrect_of_none hcommon hend ?_, fun htruncated => ?_⟩
    · rw [bound]
      omega
    · rw [hend] at htruncated
      cases htruncated

theorem getElem?_written {whole : List Char} {f : ℕ → ℕ} {k m : ℕ} (h : k < m) :
    (written whole f m)[whole.length + 1 + k]? = some (Nat.digitChar (f k)) := by
  rw [written, List.getElem?_append_right (by omega),
    show whole.length + 1 + k - whole.length = k + 1 by omega, List.getElem?_cons_succ]
  simp [h]

/-- The character of a digit in a beginning of a decimal. -/
theorem getElem?_of_isPrefix {cs : List Char} {f : ℕ → ℕ} {k m : ℕ}
    (h : cs <+: signChars x ++ written (natural ⌊|x|⌋₊) f m)
    (hlt : (rendering x k).length < cs.length) :
    cs[(rendering x k).length]? = some (Nat.digitChar (f k)) := by
  have hle := h.length_le
  have hget := List.prefix_iff_getElem?.1 h _ hlt
  rw [List.length_append, length_written] at hle
  rw [List.getElem?_eq_getElem hlt, ← hget, length_rendering]
  rw [length_rendering] at hlt
  rw [List.getElem?_append_right (by omega),
    show (signChars x).length + (natural ⌊|x|⌋₊).length + 1 + k - (signChars x).length
      = (natural ⌊|x|⌋₊).length + 1 + k by omega, getElem?_written (by omega)]

/-- **When a beginning of the unending form begins the rendering**: the digits beyond the known ones
must be the zeros that stand for them. -/
theorem begins_iff {cs : List Char} {m : ℕ} (h : cs <+: signChars x ++ (ofRat x n).symbols m) :
    Begins cs x ↔ ((ofRat x n).truncated = true →
      ∀ k, n ≤ k → (rendering x k).length < cs.length → pointDigit x k = 0) := by
  rw [symbols_ofRat] at h
  have hwritten : cs <+: signChars x ++ written (natural ⌊|x|⌋₊) (shownDigit x n) m :=
    h.trans ((List.prefix_append_right_inj _).2 (List.take_prefix _ _))
  constructor
  · rintro ⟨N, hN⟩ htruncated k hk hlt
    -- The character of the digit, once as the rendering has it and once as the unending form.
    have hdigit : Nat.digitChar (pointDigit x k) = Nat.digitChar (shownDigit x n k) :=
      Option.some.inj
        ((getElem?_of_isPrefix hN hlt).symm.trans (getElem?_of_isPrefix hwritten hlt))
    rw [shownDigit, if_pos ⟨htruncated, hk⟩] at hdigit
    rw [← Numeral.positional_digitChar (pointDigit_lt x k), hdigit]
    rfl
  · intro hzeros
    obtain ⟨M, hM⟩ : ∃ M, M = cs.length - ((signChars x).length + (natural ⌊|x|⌋₊).length + 1) :=
      ⟨_, rfl⟩
    have hsame : ∀ k < M, pointDigit x k = shownDigit x n k := by
      intro k hk
      rw [shownDigit]
      split
      · rename_i hunknown
        refine hzeros hunknown.1 k hunknown.2 ?_
        rw [length_rendering]
        omega
      · rfl
    have hlong : cs <+: signChars x ++ written (natural ⌊|x|⌋₊) (shownDigit x n) (max m M) :=
      hwritten.trans ((List.prefix_append_right_inj _).2
        (written_isPrefix (le_max_left _ _) fun _ _ => rfl))
    have hrendering : rendering x M <+:
        signChars x ++ written (natural ⌊|x|⌋₊) (shownDigit x n) (max m M) :=
      (List.prefix_append_right_inj _).2 (written_isPrefix (le_max_right _ _) hsame)
    refine ⟨M, List.prefix_of_prefix_length_le hlong hrendering ?_⟩
    rw [length_rendering]
    omega

end

end Roundoff.Expansion
