import Roundoff.Proofs.Literal.Spelling

/-! # The number a literal stands for

A decimal literal stands for a sum of fractions over powers of ten, and a repeating group for the
geometric series of its digits, which sums to a fraction over `10 ^ r - 1`.  A literal text may
also be a fraction of two digit strings.  `parse` answers the number exactly when the text spells
one (`parse_eq_ok_iff`), so a text stands for at most one number (`Denotes.unique`).
-/
namespace Roundoff.Literal

open Text (isAsciiDigit isBlank trim)
open Numeral (Digits positional read)

/-! ## Meanings -/

/-- **The number of a decimal literal**: the integer and fixed digits over a power of ten, plus the
repeating digits over `10 ^ f * (10 ^ r - 1)`, both scaled by the power of ten.  Without repeating
digits the second summand is zero. -/
def worth (l : Literal) : ℚ :=
  (if l.negative then -1 else 1) *
    ((positional (l.integer ++ l.fixed) : ℚ) / 10 ^ l.fixed.length
      + (positional l.repeating : ℚ) / (10 ^ l.fixed.length * (10 ^ l.repeating.length - 1)))
    * (10 : ℚ) ^ l.exponent

/-- How a fraction is written: its text, its numerator and its denominator. -/
inductive SpellsFraction : List Char → ℤ → ℕ → Prop
  | mk {sgn num u v den : List Char} {negative : Bool} : SignText sgn negative → Digits num →
      (∀ c ∈ u, isBlank c = true) → (∀ c ∈ v, isBlank c = true) → Digits den →
      SpellsFraction (sgn ++ (num ++ (u ++ '/' :: (v ++ den))))
        (signed negative (positional num)) (positional den)

/-- **The number that a trimmed text stands for**, decimal or fraction. -/
inductive Denotes : List Char → ℚ → Prop
  | decimal {cs : List Char} {l : Literal} : Spells cs l → Denotes cs l.worth
  | fraction {cs : List Char} {n : ℤ} {d : ℕ} : SpellsFraction cs n d → d ≠ 0 →
      Denotes cs (n / d)

/-! ## Decimal literals -/

theorem Spells.integer {cs : List Char} {l : Literal} (h : Spells cs l) : Digits l.integer := by
  obtain ⟨-, hm, -, -, -⟩ := h
  cases hm with
  | whole hi => exact hi
  | pointed hi _ => exact hi
  | leading _ =>
    refine ⟨List.cons_ne_nil _ _, fun c hc => ?_⟩
    rw [List.mem_singleton.1 hc]
    decide

theorem Spells.fixed {cs : List Char} {l : Literal} (h : Spells cs l) :
    ∀ c ∈ l.fixed, isAsciiDigit c = true := by
  obtain ⟨-, hm, -, -, -⟩ := h
  cases hm with
  | whole _ => simp
  | pointed _ hf => exact hf
  | leading hf => exact hf.all

theorem Spells.repeating {cs : List Char} {l : Literal} (h : Spells cs l) (hne : l.repeating ≠ []) :
    Digits l.repeating := by
  obtain ⟨-, -, hg, -, -⟩ := h
  cases hg with
  | none => exact absurd rfl hne
  | plain hr => exact hr
  | dotted hr => exact hr

/-- The fraction that the reader forms from the digit groups and the power of ten. -/
theorem mkRat_eq_worth (l : Literal) (n : ℤ) (d : ℕ)
    (h : (n : ℚ) / d = positional (l.integer ++ l.fixed) / 10 ^ l.fixed.length
      + positional l.repeating / (10 ^ l.fixed.length * (10 ^ l.repeating.length - 1))) :
    let p : ℤ × ℕ := if 0 ≤ l.exponent then (n * 10 ^ l.exponent.toNat, d)
      else (n, d * 10 ^ (-l.exponent).toNat)
    mkRat (if l.negative then -p.1 else p.1) p.2 = l.worth := by
  have hscale : ∀ p : ℤ × ℕ, (p = if 0 ≤ l.exponent then (n * 10 ^ l.exponent.toNat, d)
      else (n, d * 10 ^ (-l.exponent).toNat)) →
      (p.1 : ℚ) / p.2 = n / d * (10 : ℚ) ^ l.exponent := by
    rintro p rfl
    split
    · rename_i hexp
      obtain ⟨e, he⟩ := Int.eq_ofNat_of_zero_le hexp
      rw [he]
      push_cast
      simp
      ring
    · rename_i hexp
      obtain ⟨e, he⟩ := Int.eq_ofNat_of_zero_le (Int.le_of_lt (Int.neg_pos_of_neg (not_le.1 hexp)))
      have hneg : l.exponent = -(e : ℤ) := by omega
      rw [hneg, zpow_neg]
      simp [div_eq_mul_inv]
      ring
  intro p
  rw [worth, ← h, mul_assoc, ← hscale p rfl, Rat.mkRat_eq_div]
  split <;> push_cast <;> ring

theorem value_of_spells {cs : List Char} {l : Literal} (h : Spells cs l) :
    l.value = .ok l.worth := by
  have hwhole : Digits (l.integer ++ l.fixed) :=
    ⟨by simp [h.integer.ne_nil],
      fun c hc => (List.mem_append.1 hc).elim (h.integer.all c) (h.fixed c)⟩
  by_cases hnil : l.repeating = []
  · have key := mkRat_eq_worth l (positional (l.integer ++ l.fixed)) (10 ^ l.fixed.length) (by
      simp [hnil, positional])
    rw [value, ratio, Numeral.read_digits hwhole, ← key]
    simp only [hnil]
    rfl
  · -- The fraction over a power of ten and the one over the cycle are brought to one denominator.
    have hr := h.repeating hnil
    have hcycle : (10 : ℚ) ^ l.repeating.length - 1 ≠ 0 := by
      have : (1 : ℚ) < 10 ^ l.repeating.length :=
        one_lt_pow₀ (by norm_num) (by simpa using hnil)
      linarith
    have hone : 1 ≤ 10 ^ l.repeating.length := Nat.one_le_pow _ _ (by norm_num)
    have key := mkRat_eq_worth l
      (positional (l.integer ++ l.fixed) * (10 ^ l.repeating.length - 1 : ℕ) +
        positional l.repeating)
      (10 ^ l.fixed.length * (10 ^ l.repeating.length - 1)) (by
        push_cast [Nat.cast_sub hone]
        field_simp)
    have hempty : l.repeating.isEmpty = false := by simpa using hnil
    rw [value, ratio, Numeral.read_digits hwhole, ← key]
    simp only [hempty, Numeral.read_digits hr]
    rfl

/-! ## Fractions -/

theorem fraction?_eq {cs sgn num den : List Char} (h : fraction? cs = some (sgn, num, den)) :
    SpellsFraction cs (signed (sgn == ['-']) (positional num)) (positional den) ∧
      Digits num ∧ Digits den := by
  unfold fraction? at h
  rcases hsign : sign cs with ⟨sgn', body⟩
  obtain ⟨rfl, hsgn⟩ := sign_eq hsign
  rw [hsign] at h
  dsimp only at h
  split at h
  · rename_i rest hdrop
    split at h
    · cases h
    · rename_i hparts
      cases h
      simp only [Bool.or_eq_true, Bool.not_eq_true', not_or, Bool.not_eq_true,
        Bool.not_eq_false, List.all_eq_true] at hparts
      obtain ⟨⟨hnum, hden⟩, hall⟩ := hparts
      have hnum' : Digits (body.takeWhile isAsciiDigit) := digits_takeWhile body hnum
      have hden' : Digits (rest.dropWhile isBlank) := ⟨by simpa using hden, hall⟩
      refine ⟨?_, hnum', hden'⟩
      have hbody : body = body.takeWhile isAsciiDigit ++
          ((body.dropWhile isAsciiDigit).takeWhile isBlank ++
            '/' :: (rest.takeWhile isBlank ++ rest.dropWhile isBlank)) := by
        rw [List.takeWhile_append_dropWhile, ← hdrop, List.takeWhile_append_dropWhile,
          List.takeWhile_append_dropWhile]
      have hspell := SpellsFraction.mk hsgn hnum' (fun _ hc => List.mem_takeWhile_imp hc)
        (fun _ hc => List.mem_takeWhile_imp hc) hden' (u := (body.dropWhile isAsciiDigit).takeWhile
          isBlank) (v := rest.takeWhile isBlank)
      rw [← hbody] at hspell
      exact hspell
  · cases h

theorem fraction?_of_spells {cs : List Char} {n : ℤ} {d : ℕ} (h : SpellsFraction cs n d) :
    ∃ sgn num den, fraction? cs = some (sgn, num, den) ∧ Digits num ∧ Digits den ∧
      signed (sgn == ['-']) (positional num) = n ∧ positional den = d := by
  obtain @⟨sgn, num, u, v, den, negative, hsgn, hnum, hu, hv, hden⟩ := h
  have hnotdigit : ∀ c, isBlank c = true → isAsciiDigit c = false := by
    intro c hc
    by_contra hdigit
    rw [Numeral.isBlank_of_isAsciiDigit (by simpa using hdigit)] at hc
    cases hc
  have hhead : ∀ {c : Char}, isAsciiDigit c = false →
      (num ++ (u ++ '/' :: (v ++ den))).head? ≠ some c := by
    intro c hc
    rw [List.head?_append_of_ne_nil _ hnum.ne_nil]
    exact hnum.head_ne hc
  have hsign := sign_append hsgn (hhead (c := '+') (by decide)) (hhead (c := '-') (by decide))
  have hafter : NoDigit (u ++ '/' :: (v ++ den)) := by
    intro c hc
    cases u with
    | nil =>
      cases hc
      decide
    | cons b u =>
      cases hc
      exact hnotdigit _ (hu _ (List.mem_cons_self ..))
  have hden' : ∀ c ∈ den.head?, isBlank c = false := fun c hc =>
    Numeral.isBlank_of_isAsciiDigit (hden.all c (List.mem_of_mem_head? hc))
  refine ⟨sgn, num, den, ?_, hnum, hden, by rw [hsign.2], rfl⟩
  unfold fraction?
  rw [hsign.1]
  dsimp only
  rw [dropWhile_digits hnum.all hafter, takeWhile_digits hnum.all hafter,
    Text.dropWhile_append hu (by intro c hc; cases hc; decide)]
  simp [Text.dropWhile_append hv hden', hnum.ne_nil, hden.ne_nil]
  exact hden.all

theorem SpellsFraction.mem_bar {cs : List Char} {n : ℤ} {d : ℕ} (h : SpellsFraction cs n d) :
    '/' ∈ cs := by
  cases h
  simp

/-- A decimal literal has no fraction bar, so it is not read as a fraction. -/
theorem fraction?_eq_none_of_spells {cs : List Char} {l : Literal} (h : Spells cs l) :
    fraction? cs = none := by
  have hbar : '/' ∉ cs := fun hmem => by
    rcases h.chars _ hmem with (hdigit | hmark) | hletter | hletter
    · exact absurd hdigit (by decide)
    · exact absurd hmark (by decide)
    · exact absurd hletter (by decide)
    · exact absurd hletter (by decide)
  cases hfrac : fraction? cs with
  | none => rfl
  | some p =>
    obtain ⟨sgn, num, den⟩ := p
    exact absurd (fraction?_eq hfrac).1.mem_bar hbar

/-! ## Reading -/

variable {text : String}

theorem parse_of_spellsFraction {n : ℤ} {d : ℕ} (h : SpellsFraction (trim text.toList) n d)
    (limit : Option ℤ) :
    parse text limit = if d = 0 then .error .zeroDenominator else .ok (n / d) := by
  obtain ⟨sgn, num, den, hfrac, hnum, hden, rfl, rfl⟩ := fraction?_of_spells h
  have hn : (if sgn = ['-'] then -(positional num : ℤ) else positional num)
      = signed (sgn == ['-']) (positional num) := by
    simp [signed]
  simp only [parse, hfrac, Numeral.read_digits hnum, Numeral.read_digits hden, hn, Exact.ratio,
    Int.natCast_eq_zero]
  by_cases hd : positional den = 0
  · simp [hd]
  · simp [hd, Rat.divInt_eq_div]

/-- A decimal literal is read unless its exponent exceeds the limit. -/
theorem parse_of_spells {l : Literal} (h : Spells (trim text.toList) l) (limit : Option ℤ) :
    (∀ m ∈ limit, (l.exponent.natAbs : ℤ) ≤ m) ∧ parse text limit = .ok l.worth ∨
      (∃ m ∈ limit, m < l.exponent.natAbs) ∧ parse text limit =
        .error (if Numeral.isQuotable l.exponent then .exponentTooLarge l.exponent (limit.getD 0)
          else .exponentUnquotable) := by
  unfold parse
  rw [fraction?_eq_none_of_spells h, split_of_spells h]
  cases limit with
  | none =>
    refine Or.inl ⟨by simp, ?_⟩
    simp [bind, Except.bind, pure, Except.pure, value_of_spells h]
  | some m =>
    by_cases hm : m < l.exponent.natAbs
    · refine Or.inr ⟨⟨m, rfl, hm⟩, ?_⟩
      simp only [bind, Except.bind, hm, if_true]
      rfl
    · refine Or.inl ⟨fun m' heq => ?_, ?_⟩
      · cases heq
        exact not_lt.1 hm
      · simp only [bind, Except.bind, hm, if_false, value_of_spells h]
        rfl

/-- What a text can be: a fraction, a decimal literal, or neither, which is refused for its form
whatever the limit. -/
inductive Reading (text : String) : Prop
  | fraction {n : ℤ} {d : ℕ} : SpellsFraction (trim text.toList) n d → Reading text
  | decimal {l : Literal} : Spells (trim text.toList) l → Reading text
  | neither {e : LiteralError} : split text = .error e → (∀ limit, parse text limit = .error e) →
      Reading text

theorem reading (text : String) : Reading text := by
  cases hfrac : fraction? (trim text.toList) with
  | some p =>
    obtain ⟨sgn, num, den⟩ := p
    exact .fraction (fraction?_eq hfrac).1
  | none =>
    cases hsplit : split text with
    | ok l => exact .decimal (spells_of_split hsplit)
    | error e =>
      refine .neither hsplit fun limit => ?_
      unfold parse
      rw [hfrac, hsplit]
      rfl

/-- **`parse` answers the number a text stands for, whenever it stands for one.** -/
theorem parse_eq_ok_iff {r : ℚ} : parse text = .ok r ↔ Denotes (trim text.toList) r := by
  constructor
  · intro h
    cases reading text with
    | fraction hf =>
      rw [parse_of_spellsFraction hf] at h
      split at h
      · cases h
      · rename_i hd
        cases h
        exact .fraction hf hd
    | decimal hl =>
      rcases parse_of_spells hl none with ⟨-, hok⟩ | ⟨⟨m, hm, -⟩, -⟩
      · rw [hok] at h
        cases h
        exact .decimal hl
      · cases hm
    | neither _ hparse =>
      rw [hparse] at h
      cases h
  · intro h
    generalize hcs : trim text.toList = cs at h
    cases h with
    | decimal hl =>
      rcases parse_of_spells (hcs ▸ hl) none with ⟨-, hok⟩ | ⟨⟨m, hm, -⟩, -⟩
      · exact hok
      · cases hm
    | fraction hf hd =>
      rw [parse_of_spellsFraction (hcs ▸ hf), if_neg hd]

/-- A limit on the exponent refuses texts and changes no value. -/
theorem parse_of_limited {limit : Option ℤ} {r : ℚ} (h : parse text limit = .ok r) :
    parse text = .ok r := by
  cases reading text with
  | fraction hf =>
    rw [parse_of_spellsFraction hf] at h ⊢
    exact h
  | decimal hl =>
    rcases parse_of_spells hl limit with ⟨-, hok⟩ | ⟨-, herr⟩
    · rw [hok] at h
      cases h
      exact parse_eq_ok_iff.2 (.decimal hl)
    · rw [herr] at h
      cases h
  | neither _ hparse =>
    rw [hparse] at h
    cases h

theorem split_ne_zeroDenominator (text : String) : split text ≠ .error .zeroDenominator := by
  intro h
  rcases error_of_split h with h | h <;> cases h

/-- Only a fraction over zero is refused for its denominator. -/
theorem spells_over_zero {limit : Option ℤ} (h : parse text limit = .error .zeroDenominator) :
    ∃ n, SpellsFraction (trim text.toList) n 0 := by
  cases reading text with
  | @fraction n d hf =>
    rw [parse_of_spellsFraction hf] at h
    split at h
    · rename_i hd
      exact ⟨n, hd ▸ hf⟩
    · cases h
  | decimal hl =>
    rcases parse_of_spells hl limit with ⟨-, hok⟩ | ⟨-, herr⟩
    · rw [hok] at h
      cases h
    · rw [herr] at h
      split at h <;> cases h
  | neither hsplit hparse =>
    rw [hparse] at h
    cases h
    exact absurd hsplit (split_ne_zeroDenominator text)

/-- **A text stands for at most one number.** -/
theorem Denotes.unique {r q : ℚ} (hr : Denotes (trim text.toList) r)
    (hq : Denotes (trim text.toList) q) : r = q := by
  have h := (parse_eq_ok_iff.2 hr).symm.trans (parse_eq_ok_iff.2 hq)
  cases h
  rfl

open Classical in
/-- The number that a text stands for, blanks around it aside, if it stands for one. -/
noncomputable def number? (text : String) : Option ℚ :=
  if h : ∃ r, Denotes (trim text.toList) r then some h.choose else none

theorem number?_eq_some_iff {r : ℚ} : number? text = some r ↔ Denotes (trim text.toList) r := by
  unfold number?
  split
  · rename_i h
    constructor
    · intro heq
      cases heq
      exact h.choose_spec
    · intro hr
      rw [h.choose_spec.unique hr]
  · rename_i h
    exact ⟨fun heq => (nomatch heq), fun hr => absurd ⟨r, hr⟩ h⟩

theorem parse_toOption (text : String) : (parse text).toOption = number? text := by
  have hiff : ∀ r, number? text = some r ↔ parse text = .ok r := fun r =>
    number?_eq_some_iff.trans parse_eq_ok_iff.symm
  cases hparse : parse text with
  | ok r => exact ((hiff r).2 hparse).symm
  | error e =>
    refine (Option.eq_none_iff_forall_ne_some.2 fun r hr => ?_).symm
    rw [(hiff r).1 hr] at hparse
    cases hparse

end Roundoff.Literal
