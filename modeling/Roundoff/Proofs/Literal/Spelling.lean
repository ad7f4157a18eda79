import Roundoff.Literal
import Roundoff.Proofs.Numeral.Positional
import Roundoff.Proofs.Sequence

/-! # Spellings of decimal literals

How a decimal literal is written, as a grammar apart from the function that takes it apart: an
optional sign, digits with an optional point, a group of repeating digits in parentheses if there
is a point, and an optional power of ten.  `split` accepts exactly the trimmed texts of this
grammar and answers their parts (`split_eq_ok_iff`), so a spelling determines its literal.
-/
namespace Roundoff.Literal

open Text (isAsciiDigit isBlank trim)
open Numeral (Digits positional read)

/-! ## The grammar -/

/-- An optional sign, and whether it is the minus sign. -/
inductive SignText : List Char → Bool → Prop
  | none : SignText [] false
  | plus : SignText ['+'] false
  | minus : SignText ['-'] true

/-- Digits with an optional point: the text, the digits before and after the point, and whether
there is a point.  Digits missing before the point count as a zero. -/
inductive MantissaText : List Char → List Char → List Char → Bool → Prop
  | whole {i : List Char} : Digits i → MantissaText i i [] false
  | pointed {i f : List Char} : Digits i → (∀ c ∈ f, isAsciiDigit c = true) →
      MantissaText (i ++ '.' :: f) i f true
  | leading {f : List Char} : Digits f → MantissaText ('.' :: f) ['0'] f true

/-- An optional group of repeating digits: the text and the digits. -/
inductive GroupText : List Char → List Char → Prop
  | none : GroupText [] []
  | plain {r : List Char} : Digits r → GroupText ('(' :: (r ++ [')'])) r
  | dotted {r : List Char} : Digits r → GroupText ('(' :: (r ++ ['.', '.', '.', ')'])) r

/-- An integer with the sign of a flag. -/
def signed (negative : Bool) (n : ℤ) : ℤ := if negative then -n else n

/-- An optional power of ten: the text and the exponent. -/
inductive ScaleText : List Char → ℤ → Prop
  | none : ScaleText [] 0
  | power {c : Char} {sgn ds : List Char} {negative : Bool} : c = 'e' ∨ c = 'E' →
      SignText sgn negative → Digits ds →
      ScaleText (c :: (sgn ++ ds)) (signed negative (positional ds))

/-- **How a decimal literal is written.** -/
inductive Spells : List Char → Literal → Prop
  | mk {sgn m g e i f r : List Char} {negative point : Bool} {x : ℤ} :
      SignText sgn negative → MantissaText m i f point → GroupText g r →
      (point = false → g = []) → ScaleText e x →
      Spells (sgn ++ (m ++ (g ++ e))) ⟨negative, i, f, r, x⟩

/-! ## Cutting digits off a text -/

/-- The text does not go on with a digit. -/
def NoDigit (rest : List Char) : Prop := ∀ c ∈ rest.head?, isAsciiDigit c = false

theorem noDigit_nil : NoDigit [] := by
  intro c hc
  cases hc

theorem noDigit_cons {c : Char} {rest : List Char} (h : isAsciiDigit c = false) :
    NoDigit (c :: rest) := by
  intro d hd
  cases hd
  exact h

theorem takeWhile_digits {ds rest : List Char} (h : ∀ c ∈ ds, isAsciiDigit c = true)
    (hr : NoDigit rest) : (ds ++ rest).takeWhile isAsciiDigit = ds := by
  rw [List.takeWhile_append_of_pos h]
  cases rest with
  | nil => simp
  | cons c rest => rw [List.takeWhile_cons_of_neg (by simp [hr c rfl]), List.append_nil]

theorem dropWhile_digits {ds rest : List Char} (h : ∀ c ∈ ds, isAsciiDigit c = true)
    (hr : NoDigit rest) : (ds ++ rest).dropWhile isAsciiDigit = rest := by
  rw [List.dropWhile_append_of_pos h]
  cases rest with
  | nil => rfl
  | cons c rest => exact List.dropWhile_cons_of_neg (by simp [hr c rfl])

theorem all_takeWhile (cs : List Char) : ∀ c ∈ cs.takeWhile isAsciiDigit, isAsciiDigit c = true :=
  fun _ hc => List.mem_takeWhile_imp hc

theorem digits_takeWhile (cs : List Char) (h : (cs.takeWhile isAsciiDigit).isEmpty = false) :
    Digits (cs.takeWhile isAsciiDigit) :=
  ⟨fun hnil => by simp [hnil] at h, all_takeWhile cs⟩

theorem noDigit_dropWhile (cs : List Char) : NoDigit (cs.dropWhile isAsciiDigit) := by
  intro c hc
  have := List.head?_dropWhile_not isAsciiDigit cs
  rw [Option.mem_def.1 hc] at this
  simpa using this

/-! ## The parts -/

theorem sign_eq {cs sgn rest : List Char} (h : sign cs = (sgn, rest)) :
    cs = sgn ++ rest ∧ SignText sgn (sgn == ['-']) := by
  unfold sign at h
  split at h <;> cases h
  · exact ⟨rfl, .plus⟩
  · exact ⟨rfl, .minus⟩
  · exact ⟨rfl, .none⟩

theorem sign_append {sgn rest : List Char} {negative : Bool} (h : SignText sgn negative)
    (hplus : rest.head? ≠ some '+') (hminus : rest.head? ≠ some '-') :
    sign (sgn ++ rest) = (sgn, rest) ∧ (sgn == ['-']) = negative := by
  cases h with
  | plus => exact ⟨rfl, rfl⟩
  | minus => exact ⟨rfl, rfl⟩
  | none =>
    refine ⟨?_, rfl⟩
    rw [List.nil_append]
    unfold sign
    split
    · exact absurd rfl hplus
    · exact absurd rfl hminus
    · rfl

theorem mantissa?_eq {cs i rest : List Char} {frac : Option (List Char)}
    (h : mantissa? cs = some (i, frac, rest)) :
    ∃ m, cs = m ++ rest ∧
      MantissaText m (if i = [] then ['0'] else i) (frac.getD []) frac.isSome ∧
      NoDigit rest := by
  have hcs : cs.takeWhile isAsciiDigit ++ cs.dropWhile isAsciiDigit = cs :=
    List.takeWhile_append_dropWhile ..
  have hnext := noDigit_dropWhile cs
  unfold mantissa? at h
  dsimp only at h
  split at h
  · rename_i after hdrop
    have hafter : after.takeWhile isAsciiDigit ++ after.dropWhile isAsciiDigit = after :=
      List.takeWhile_append_dropWhile ..
    split at h
    · cases h
    · rename_i hdigit
      cases h
      rw [hdrop] at hcs
      by_cases hi : cs.takeWhile isAsciiDigit = []
      · rw [hi] at hdigit hcs ⊢
        have hf := digits_takeWhile after (by simpa using hdigit)
        refine ⟨'.' :: after.takeWhile isAsciiDigit, ?_, .leading hf, noDigit_dropWhile after⟩
        rw [← hcs, List.nil_append, List.cons_append, hafter]
      · refine ⟨cs.takeWhile isAsciiDigit ++ '.' :: after.takeWhile isAsciiDigit, ?_, ?_,
          noDigit_dropWhile after⟩
        · rw [List.append_assoc, List.cons_append, hafter, hcs]
        · rw [if_neg hi]
          exact .pointed (digits_takeWhile cs (by simpa using hi)) (all_takeWhile after)
  · split at h
    · cases h
    · rename_i hi
      cases h
      rw [if_neg (by simpa using hi)]
      exact ⟨_, hcs.symm, .whole (digits_takeWhile cs (by simpa using hi)), hnext⟩

theorem mantissa?_append {m i f rest : List Char} {point : Bool} (h : MantissaText m i f point)
    (hr : NoDigit rest) (hp : point = false → rest.head? ≠ some '.') :
    ∃ i' frac, mantissa? (m ++ rest) = some (i', frac, rest) ∧
      (if i' = [] then ['0'] else i') = i ∧ frac.getD [] = f ∧ frac.isSome = point := by
  cases h with
  | whole hi =>
    refine ⟨m, none, ?_, by simp [hi.ne_nil], rfl, rfl⟩
    unfold mantissa?
    rw [takeWhile_digits hi.all hr, dropWhile_digits hi.all hr]
    dsimp only
    split
    · exact absurd rfl (hp rfl)
    · simp [hi.ne_nil]
  | pointed hi hf =>
    refine ⟨i, some f, ?_, by simp [hi.ne_nil], rfl, rfl⟩
    have hpoint : NoDigit ('.' :: (f ++ rest)) := noDigit_cons (by decide)
    unfold mantissa?
    rw [List.append_assoc, List.cons_append, takeWhile_digits hi.all hpoint,
      dropWhile_digits hi.all hpoint]
    simp [takeWhile_digits hf hr, dropWhile_digits hf hr, hi.ne_nil]
  | leading hf =>
    refine ⟨[], some f, ?_, rfl, rfl, rfl⟩
    unfold mantissa?
    rw [List.cons_append, List.takeWhile_cons_of_neg (by decide),
      List.dropWhile_cons_of_neg (by decide)]
    simp [takeWhile_digits hf.all hr, dropWhile_digits hf.all hr, hf.ne_nil]

theorem group?_eq {cs r rest : List Char} (h : group? cs = some (r, rest)) :
    Digits r ∧ ∃ g, cs = g ++ rest ∧ g ≠ [] ∧ GroupText g r := by
  unfold group? at h
  split at h
  · rename_i ds
    have hds : ds.takeWhile isAsciiDigit ++ ds.dropWhile isAsciiDigit = ds :=
      List.takeWhile_append_dropWhile ..
    dsimp only at h
    split at h
    · cases h
    · rename_i hne
      have hdigits := digits_takeWhile ds (by simpa using hne)
      split at h
      · rename_i hdrop
        cases h
        rw [hdrop] at hds
        refine ⟨hdigits, _, ?_, List.cons_ne_nil _ _, .plain hdigits⟩
        conv_lhs => rw [← hds]
        simp
      · rename_i hdrop
        cases h
        rw [hdrop] at hds
        refine ⟨hdigits, _, ?_, List.cons_ne_nil _ _, .dotted hdigits⟩
        conv_lhs => rw [← hds]
        simp
      · cases h
  · cases h

theorem group?_append {g r rest : List Char} (h : GroupText g r) (hg : g ≠ []) :
    group? (g ++ rest) = some (r, rest) := by
  cases h with
  | none => exact absurd rfl hg
  | plain hr =>
    have hnext : NoDigit (')' :: rest) := noDigit_cons (by decide)
    simp [group?, takeWhile_digits hr.all hnext, dropWhile_digits hr.all hnext, hr.ne_nil]
  | dotted hr =>
    have hnext : NoDigit ('.' :: '.' :: '.' :: ')' :: rest) := noDigit_cons (by decide)
    simp [group?, takeWhile_digits hr.all hnext, dropWhile_digits hr.all hnext, hr.ne_nil]

theorem read_signed {sgn ds : List Char} {negative : Bool} (hs : SignText sgn negative)
    (hd : Digits ds) : read (sgn ++ ds) = .ok (signed negative (positional ds)) := by
  cases hs with
  | none => exact Numeral.read_digits hd
  | plus => exact Numeral.read_cons_sign hd (Or.inl rfl)
  | minus => exact Numeral.read_cons_sign hd (Or.inr rfl)

theorem scale?_eq {cs ds rest : List Char} (h : scale? cs = some (ds, rest)) :
    ∃ e x, cs = e ++ rest ∧ ScaleText e x ∧ read ds = .ok x := by
  unfold scale? at h
  split at h
  · rename_i c after
    split at h
    · rename_i hc
      rcases hsign : sign after with ⟨sgn, digits⟩
      obtain ⟨rfl, hsgn⟩ := sign_eq hsign
      rw [hsign] at h
      dsimp only at h
      split at h
      · cases h
      · rename_i hne
        cases h
        have hdigits := digits_takeWhile digits (by simpa using hne)
        refine ⟨_, _, ?_, .power hc hsgn hdigits, read_signed hsgn hdigits⟩
        simp [List.takeWhile_append_dropWhile]
    · cases h
  · cases h

theorem scale?_scaleText {e : List Char} {x : ℤ} (h : ScaleText e x) :
    (e = [] ∧ x = 0) ∨ ∃ ds, scale? e = some (ds, []) ∧ read ds = .ok x := by
  cases h with
  | none => exact Or.inl ⟨rfl, rfl⟩
  | @power c sgn ds negative hc hsgn hd =>
    refine Or.inr ⟨sgn ++ ds, ?_, read_signed hsgn hd⟩
    have hsign : sign (sgn ++ ds) = (sgn, ds) :=
      (sign_append hsgn (hd.head_ne (by decide)) (hd.head_ne (by decide))).1
    have htake : ds.takeWhile isAsciiDigit = ds := List.takeWhile_eq_self_iff.2 hd.all
    have hdrop : ds.dropWhile isAsciiDigit = [] := List.dropWhile_eq_nil_iff.2 hd.all
    unfold scale?
    dsimp only
    rw [if_pos hc, hsign]
    simp [htake, hdrop, hd.ne_nil]

/-! ## What may follow a part -/

theorem GroupText.eq_nil {r : List Char} (h : GroupText [] r) : r = [] := by
  cases h
  rfl

theorem GroupText.digits {g r : List Char} (h : GroupText g r) (hg : g ≠ []) : Digits r := by
  cases h with
  | none => exact absurd rfl hg
  | plain hr => exact hr
  | dotted hr => exact hr

/-- A power of ten starts with its letter. -/
theorem ScaleText.head {e : List Char} {x : ℤ} (h : ScaleText e x) :
    ∀ c ∈ e.head?, c = 'e' ∨ c = 'E' := by
  cases h with
  | none => simp
  | power hc _ _ =>
    intro c heq
    cases heq
    exact hc

theorem GroupText.head {g r : List Char} (h : GroupText g r) (hg : g ≠ []) :
    g.head? = some '(' := by
  cases h with
  | none => exact absurd rfl hg
  | plain _ => rfl
  | dotted _ => rfl

/-- Neither a digit nor a point follows a mantissa. -/
theorem head_group_scale {g r e : List Char} {x : ℤ} (hg : GroupText g r) (he : ScaleText e x) :
    ∀ c ∈ (g ++ e).head?, c = '(' ∨ c = 'e' ∨ c = 'E' := by
  intro c hc
  by_cases hnil : g = []
  · subst hnil
    exact Or.inr (he.head c hc)
  · rw [List.head?_append_of_ne_nil _ hnil, hg.head hnil] at hc
    cases hc
    exact Or.inl rfl

theorem group?_scaleText {e : List Char} {x : ℤ} (h : ScaleText e x) : group? e = none := by
  have hhead := h.head
  unfold group?
  split
  · rcases hhead '(' rfl with h | h <;> exact absurd h (by decide)
  · rfl

/-- A mantissa starts with a digit or the point, so no sign can be taken off it. -/
theorem MantissaText.head {m i f : List Char} {point : Bool} (h : MantissaText m i f point)
    (rest : List Char) : ∀ c ∈ (m ++ rest).head?, isAsciiDigit c = true ∨ c = '.' := by
  have hdigits : ∀ {ds more : List Char}, Digits ds →
      ∀ c ∈ (ds ++ more).head?, isAsciiDigit c = true ∨ c = '.' := by
    intro ds more hd c hc
    rw [List.head?_append_of_ne_nil _ hd.ne_nil] at hc
    exact Or.inl (hd.all c (List.mem_of_mem_head? hc))
  cases h with
  | whole hi => exact hdigits hi
  | pointed hi _ =>
    rw [List.append_assoc]
    exact hdigits hi
  | leading _ =>
    intro c hc
    cases hc
    exact Or.inr rfl

theorem MantissaText.ne_nil {m i f : List Char} {point : Bool} (h : MantissaText m i f point) :
    m ≠ [] := by
  cases h with
  | whole hi => exact hi.ne_nil
  | pointed _ _ => exact List.append_ne_nil_of_right_ne_nil _ (List.cons_ne_nil _ _)
  | leading _ => exact List.cons_ne_nil _ _

theorem Spells.ne_nil {cs : List Char} {l : Literal} (h : Spells cs l) : cs ≠ [] := by
  obtain ⟨-, hm, -, -, -⟩ := h
  exact List.append_ne_nil_of_right_ne_nil _ (List.append_ne_nil_of_left_ne_nil hm.ne_nil _)

/-! ## Characters -/

/-- The characters of a decimal literal apart from the letter of a power of ten. -/
def IsDigitOrMark (c : Char) : Prop :=
  isAsciiDigit c = true ∨ c ∈ ['+', '-', '.', '(', ')']

theorem isDigitOrMark_of_digits {ds : List Char} (h : ∀ c ∈ ds, isAsciiDigit c = true) :
    ∀ c ∈ ds, IsDigitOrMark c :=
  fun c hc => Or.inl (h c hc)

theorem IsDigitOrMark.not_blank {c : Char} (h : IsDigitOrMark c) : isBlank c = false := by
  have hmarks : ∀ c ∈ ['+', '-', '.', '(', ')'], isBlank c = false := by
    simp only [List.forall_mem_cons]
    exact ⟨by decide, by decide, by decide, by decide, by decide, nofun⟩
  rcases h with hdigit | hmark
  · exact Numeral.isBlank_of_isAsciiDigit hdigit
  · exact hmarks c hmark

theorem SignText.chars {sgn : List Char} {negative : Bool} (h : SignText sgn negative) :
    ∀ c ∈ sgn, IsDigitOrMark c := by
  cases h with
  | none => exact nofun
  | plus | minus =>
    intro c hc
    rw [List.mem_singleton.1 hc]
    exact Or.inr (by decide)

theorem SignText.not_blank {sgn : List Char} {negative : Bool} (h : SignText sgn negative) :
    ∀ c ∈ sgn, isBlank c = false :=
  fun c hc => (h.chars c hc).not_blank

theorem MantissaText.chars {m i f : List Char} {point : Bool} (h : MantissaText m i f point) :
    ∀ c ∈ m, IsDigitOrMark c := by
  have hpoint : IsDigitOrMark '.' := Or.inr (by decide)
  cases h with
  | whole hi => exact isDigitOrMark_of_digits hi.all
  | pointed hi hf =>
    rw [List.forall_mem_append, List.forall_mem_cons]
    exact ⟨isDigitOrMark_of_digits hi.all, hpoint, isDigitOrMark_of_digits hf⟩
  | leading hf =>
    rw [List.forall_mem_cons]
    exact ⟨hpoint, isDigitOrMark_of_digits hf.all⟩

theorem GroupText.chars {g r : List Char} (h : GroupText g r) : ∀ c ∈ g, IsDigitOrMark c := by
  have hmarks : ∀ c ∈ ['(', '.', ')'], IsDigitOrMark c := fun c hc => by
    simp only [List.mem_cons, List.not_mem_nil, or_false] at hc
    rcases hc with rfl | rfl | rfl <;> exact Or.inr (by decide)
  cases h with
  | none => exact nofun
  | plain hr =>
    have hclosing : [')'] ⊆ ['(', '.', ')'] := by decide
    rw [List.forall_mem_cons, List.forall_mem_append]
    exact ⟨hmarks _ (by decide), isDigitOrMark_of_digits hr.all, fun c hc => hmarks c (hclosing hc)⟩
  | dotted hr =>
    have hclosing : ['.', '.', '.', ')'] ⊆ ['(', '.', ')'] := by decide
    rw [List.forall_mem_cons, List.forall_mem_append]
    exact ⟨hmarks _ (by decide), isDigitOrMark_of_digits hr.all, fun c hc => hmarks c (hclosing hc)⟩

/-- **What a decimal literal is written with.** -/
theorem Spells.chars {cs : List Char} {l : Literal} (h : Spells cs l) :
    ∀ c ∈ cs, IsDigitOrMark c ∨ c = 'e' ∨ c = 'E' := by
  obtain ⟨hsgn, hm, hg, -, he⟩ := h
  simp only [List.forall_mem_append]
  refine ⟨fun c hc => Or.inl (hsgn.chars c hc), fun c hc => Or.inl (hm.chars c hc),
    fun c hc => Or.inl (hg.chars c hc), ?_⟩
  cases he with
  | none => exact nofun
  | power hletter hs hd =>
    rw [List.forall_mem_cons, List.forall_mem_append]
    exact ⟨Or.inr hletter, fun c hc => Or.inl (hs.chars c hc),
      fun c hc => Or.inl (isDigitOrMark_of_digits hd.all c hc)⟩

/-- There are no blanks in a decimal literal. -/
theorem Spells.not_blank {cs : List Char} {l : Literal} (h : Spells cs l) :
    ∀ c ∈ cs, isBlank c = false := by
  intro c hc
  rcases h.chars c hc with hmark | rfl | rfl
  · exact hmark.not_blank
  · decide
  · decide

/-! ## Splitting -/

/-- The parts of a text, put together: repeating digits need a point. -/
theorem spells_of_parts {cs sgn m i rest g r e : List Char} {frac : Option (List Char)} {x : ℤ}
    (hcs : cs = sgn ++ (m ++ rest)) (hsgn : SignText sgn (sgn == ['-']))
    (hm : MantissaText m i (frac.getD []) frac.isSome) (hrest : rest = g ++ e)
    (hg : GroupText g r) (hr : r = [] ∨ frac ≠ none) (he : ScaleText e x) :
    Spells cs ⟨sgn == ['-'], i, frac.getD [], r, x⟩ := by
  rw [hcs, hrest]
  refine .mk hsgn hm hg (fun hpoint => ?_) he
  by_contra hne
  rcases hr with hr | hr
  · exact (hg.digits hne).ne_nil hr
  · rw [Option.isSome_iff_ne_none.2 hr] at hpoint
    cases hpoint

/-- **`split` takes a spelling apart, or it refuses the text** for its form or for a group without a
point.  An exponent is a digit string and can always be read. -/
theorem ends_split (text : String) :
    Ends (fun e => e = .notDecimal text ∨ e = .groupWithoutPoint text)
      (Spells (trim text.toList)) (split text) := by
  unfold split
  rcases hsign : sign (trim text.toList) with ⟨sgn, body⟩
  obtain ⟨htext, hsgn⟩ := sign_eq hsign
  dsimp only
  cases hmantissa : mantissa? body with
  | none => exact .stop (Or.inl rfl)
  | some parts =>
    obtain ⟨i, frac, rest⟩ := parts
    obtain ⟨m, rfl, hm, -⟩ := mantissa?_eq hmantissa
    -- Whether there is a group, and whether there is a power of ten.
    cases hgroup : group? rest with
    | none =>
      cases hscale : scale? rest with
      | none =>
        simp [hgroup, hscale, pure, Except.pure]
        split
        · rename_i hrest
          exact .ok (spells_of_parts (g := []) (e := []) htext hsgn hm hrest .none (Or.inl rfl)
            .none)
        · exact .stop (Or.inl rfl)
      | some p =>
        obtain ⟨ds, final⟩ := p
        obtain ⟨e, x, hafter, he, hread⟩ := scale?_eq hscale
        simp [hgroup, hscale, hread, Functor.map, Except.map]
        split
        · rename_i hfinal
          rw [hfinal, List.append_nil] at hafter
          exact .ok (spells_of_parts (g := []) htext hsgn hm hafter .none (Or.inl rfl) he)
        · exact .stop (Or.inl rfl)
    | some p =>
      obtain ⟨r, after⟩ := p
      obtain ⟨hr, g, hrest, -, hg⟩ := group?_eq hgroup
      cases hscale : scale? after with
      | none =>
        simp [hgroup, hscale, hr.ne_nil, pure, Except.pure]
        split
        · rename_i hfinal
          subst hfinal
          split
          · exact .stop (Or.inr rfl)
          · rename_i hfrac
            exact .ok (spells_of_parts htext hsgn hm hrest hg (Or.inr hfrac) .none)
        · exact .stop (Or.inl rfl)
      | some p =>
        obtain ⟨ds, final⟩ := p
        obtain ⟨e, x, hafter, he, hread⟩ := scale?_eq hscale
        simp [hgroup, hscale, hread, hr.ne_nil, Functor.map, Except.map]
        split
        · rename_i hfinal
          rw [hfinal, List.append_nil] at hafter
          subst hafter
          split
          · exact .stop (Or.inr rfl)
          · rename_i hfrac
            exact .ok (spells_of_parts htext hsgn hm hrest hg (Or.inr hfrac) he)
        · exact .stop (Or.inl rfl)

theorem spells_of_split {text : String} {l : Literal} (h : split text = .ok l) :
    Spells (trim text.toList) l := by
  have hends := ends_split text
  rw [h] at hends
  cases hends with
  | ok hspells => exact hspells

theorem error_of_split {text : String} {e : LiteralError} (h : split text = .error e) :
    e = .notDecimal text ∨ e = .groupWithoutPoint text := by
  have hends := ends_split text
  rw [h] at hends
  cases hends with
  | stop hreason => exact hreason

theorem split_of_spells {text : String} {l : Literal} (h : Spells (trim text.toList) l) :
    split text = .ok l := by
  generalize hcs : trim text.toList = cs at h
  obtain @⟨sgn, m, g, e, i, f, r, negative, point, x, hsgn, hm, hg, hpoint, he⟩ := h
  have hhead := head_group_scale hg he
  have hsign : sign (sgn ++ (m ++ (g ++ e))) = (sgn, m ++ (g ++ e)) ∧
      (sgn == ['-']) = negative := by
    refine sign_append hsgn ?_ ?_ <;>
    · intro heq
      rcases hm.head (g ++ e) _ heq with h | h <;> exact absurd h (by decide)
  have hnodigit : NoDigit (g ++ e) := by
    intro c hc
    rcases hhead c hc with rfl | rfl | rfl <;> decide
  obtain ⟨i', frac, hmantissa, hi, hf, hp⟩ := mantissa?_append hm hnodigit (by
    intro _ heq
    rcases hhead _ heq with h | h | h <;> exact absurd h (by decide))
  -- Without a point there is no group, so the check that a group has one never fails.
  have hfrac : r = [] ∨ frac ≠ none := by
    cases hpt : point with
    | true => exact Or.inr (Option.isSome_iff_ne_none.1 (hp.trans hpt))
    | false =>
      rw [hpoint hpt] at hg
      exact Or.inl hg.eq_nil
  have hend : scale? [] = none := rfl
  unfold split
  rw [hcs, hsign.1]
  dsimp only
  rw [hmantissa]
  by_cases hnil : g = []
  · subst hnil
    have hr := hg.eq_nil
    subst hr
    rcases scale?_scaleText he with ⟨rfl, rfl⟩ | ⟨ds, hscale, hread⟩
    · simp [group?, hend, hi, hf, hsign.2, pure, Except.pure]
    · simp [group?_scaleText he, hscale, hread, hi, hf, hsign.2, Functor.map, Except.map]
  · have hgroup : group? (g ++ e) = some (r, e) := group?_append hg hnil
    have hr := (hg.digits hnil).ne_nil
    have hfrac' : frac ≠ none := hfrac.resolve_left hr
    rcases scale?_scaleText he with ⟨rfl, rfl⟩ | ⟨ds, hscale, hread⟩
    · rw [List.append_nil] at hgroup ⊢
      simp [hgroup, hend, hi, hf, hr, hfrac', hsign.2, pure, Except.pure]
    · simp [hgroup, hscale, hread, hi, hf, hr, hfrac', hsign.2, Functor.map, Except.map]

/-- **`split` takes apart exactly the spellings of decimal literals.** -/
theorem split_eq_ok_iff {text : String} {l : Literal} :
    split text = .ok l ↔ Spells (trim text.toList) l :=
  ⟨spells_of_split, split_of_spells⟩

end Roundoff.Literal
