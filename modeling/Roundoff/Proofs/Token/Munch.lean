import Roundoff.Proofs.Token.Words

/-! # The longest word everywhere

At every place of a line the lexer takes the longest word there is (`lexeme?_eq_some_iff`), and it
stops where no word starts (`lexeme?_eq_none_iff`).  Its answer is therefore the one way to cut the
line from the left into blanks and longest words (`Munch`), as far as this goes.
-/
namespace Roundoff.Lexer

open Text (isAsciiDigit isBlank)
open Literal (SignText MantissaText GroupText ScaleText NoDigit mantissa? group? scale?)
open Numeral (Digits)

/-! ## Numbers at the front of a text -/

theorem digits_append {ds d : List Char} (h : Digits ds) (hd : ∀ c ∈ d, isAsciiDigit c = true) :
    Digits (ds ++ d) := by
  refine ⟨List.append_ne_nil_of_left_ne_nil h.ne_nil d, fun c hc => ?_⟩
  rcases List.mem_append.1 hc with hc | hc
  · exact h.all c hc
  · exact hd c hc

/-- A mantissa goes on with digits. -/
theorem mantissaText_append {m i f d : List Char} {point : Bool} (h : MantissaText m i f point)
    (hd : ∀ c ∈ d, isAsciiDigit c = true) : ∃ i' f', MantissaText (m ++ d) i' f' point := by
  cases h with
  | whole hi => exact ⟨_, _, .whole (digits_append hi hd)⟩
  | pointed hi hf =>
    have hfd : ∀ c ∈ f ++ d, isAsciiDigit c = true := fun c hc =>
      (List.mem_append.1 hc).elim (hf c) (hd c)
    refine ⟨i, f ++ d, ?_⟩
    rw [List.append_assoc, List.cons_append]
    exact .pointed hi hfd
  | leading hf => exact ⟨_, _, .leading (digits_append hf hd)⟩

/-- A power of ten goes on with digits. -/
theorem scaleText_append {e d : List Char} {x : ℤ} (h : ScaleText e x) (he : e ≠ [])
    (hd : ∀ c ∈ d, isAsciiDigit c = true) : ∃ y, ScaleText (e ++ d) y := by
  cases h with
  | none => exact absurd rfl he
  | @power c sgn ds negative hc hsgn hds =>
    have hmore := ScaleText.power hc hsgn (digits_append hds hd)
    rw [← List.append_assoc, ← List.cons_append] at hmore
    exact ⟨_, hmore⟩

theorem exists_digits (cs : List Char) : ∃ d rest, cs = d ++ rest ∧
    (∀ c ∈ d, isAsciiDigit c = true) ∧ NoDigit rest :=
  ⟨cs.takeWhile isAsciiDigit, cs.dropWhile isAsciiDigit, List.takeWhile_append_dropWhile.symm,
    Literal.all_takeWhile cs, Literal.noDigit_dropWhile cs⟩

/-- A mantissa at the front of a text is taken off, with what else belongs to it. -/
theorem mantissa?_take {m i f : List Char} {point : Bool} (h : MantissaText m i f point)
    (cs : List Char) :
    ∃ i' frac rest, mantissa? (m ++ cs) = some (i', frac, rest) ∧ rest <:+ cs := by
  obtain ⟨d, r, rfl, hd, hr⟩ := exists_digits cs
  obtain ⟨i₁, f₁, hm⟩ := mantissaText_append h hd
  rw [← List.append_assoc]
  by_cases hpoint : point = false ∧ r.head? = some '.'
  · -- The digits were those before a point.
    obtain ⟨rfl, hhead⟩ := hpoint
    obtain ⟨r, rfl⟩ := List.head?_eq_some_iff.1 hhead
    obtain ⟨d₂, rest, rfl, hd₂, hrest⟩ := exists_digits r
    have hi : Digits (m ++ d) := by
      cases h with
      | whole hi => exact digits_append hi hd
    obtain ⟨i', frac, hmantissa, -⟩ :=
      Literal.mantissa?_append (.pointed hi hd₂) hrest (fun h => (nomatch h))
    refine ⟨i', frac, rest, ?_, ⟨d ++ '.' :: d₂, by simp⟩⟩
    rw [← hmantissa]
    simp
  · obtain ⟨i', frac, hmantissa, -⟩ :=
      Literal.mantissa?_append hm hr fun hp hhead => hpoint ⟨hp, hhead⟩
    exact ⟨i', frac, r, hmantissa, List.suffix_append d r⟩

theorem group?_suffix (cs : List Char) : ((group? cs).map (·.2)).getD cs <:+ cs := by
  obtain ⟨g, r, -, hcs⟩ := group_off cs
  exact ⟨g, hcs.symm⟩

theorem scale?_suffix (cs : List Char) : ((scale? cs).map (·.2)).getD cs <:+ cs := by
  obtain ⟨e, x, -, hcs⟩ := scale_off cs
  exact ⟨e, hcs.symm⟩

/-- A power of ten at the front of a text is taken off, with the digits after it. -/
theorem scale?_take {e : List Char} {x : ℤ} (h : ScaleText e x) (cs : List Char) :
    ((scale? (e ++ cs)).map (·.2)).getD (e ++ cs) <:+ cs := by
  by_cases he : e = []
  · subst he
    exact scale?_suffix cs
  · obtain ⟨d, r, rfl, hd, hr⟩ := exists_digits cs
    obtain ⟨y, hmore⟩ := scaleText_append h he hd
    obtain ⟨ds, hscale⟩ := scale?_append hmore (List.append_ne_nil_of_left_ne_nil he d) hr
    rw [← List.append_assoc, hscale]
    exact List.suffix_append d r

/-- **A number at the front of a text is taken off**, with what else belongs to it. -/
theorem afterNumber?_take {w : List Char} {l : Literal} (h : NumberText w l) (cs : List Char) :
    ∃ rest, afterNumber? (w ++ cs) = some rest ∧ rest <:+ cs := by
  obtain @⟨m, g, e, i, f, r, point, x, hm, hg, hpoint, he⟩ := h
  by_cases hnil : g ++ e = []
  · obtain ⟨i', frac, rest, hmantissa, hrest⟩ := mantissa?_take hm cs
    rw [hnil, List.append_nil, afterNumber?, hmantissa]
    refine ⟨_, rfl, (scale?_suffix _).trans (List.IsSuffix.trans ?_ hrest)⟩
    split
    · exact group?_suffix rest
    · exact List.suffix_rfl
  · rw [List.append_assoc, List.append_assoc,
      afterNumber?_mantissa hm hg hpoint he fun h => absurd h hnil]
    exact ⟨_, rfl, scale?_take he cs⟩

/-! ## Words at the front of a text -/

/-- No character of a word is a blank. -/
theorem Word.not_blank {w : List Char} {kind : TokenKind} {text : String}
    (h : Word w kind text) : ∀ c ∈ w, isBlank c = false := by
  cases h with
  | number hn => exact hn.not_blank
  | @name c cs hc hcs =>
    intro d hd
    rcases List.mem_cons.1 hd with rfl | hd
    · exact isBlank_of_isNameStart hc
    · rcases Bool.or_eq_true_iff.1 (hcs d hd) with hstart | hdigit
      · exact isBlank_of_isNameStart hstart
      · exact Numeral.isBlank_of_isAsciiDigit hdigit
  | symbol hmem =>
    have hmarks : ∀ s ∈ spellings, ∀ c ∈ s.1, c ∈ marks := by simp [spellings, marks]
    exact fun c hc => (mark_start c (hmarks _ hmem c hc)).1

/-- A token's text is the word itself, and `^` for a power spelled `**`. -/
theorem Word.text_eq {w : List Char} {kind : TokenKind} {text : String} (h : Word w kind text) :
    text = if w = ['*', '*'] then "^" else String.ofList w := by
  cases h with
  | number hn =>
    rw [if_neg]
    rintro rfl
    obtain ⟨rest, hafter, -⟩ := afterNumber?_take hn []
    rw [List.append_nil, afterNumber?_eq_none (by decide) (by decide)] at hafter
    cases hafter
  | @name c cs hc _ =>
    rw [if_neg]
    rintro heq
    cases heq
    exact absurd hc (by decide)
  | symbol hmem =>
    have htexts : ∀ s ∈ spellings,
        s.2.2 = if s.1 = ['*', '*'] then "^" else String.ofList s.1 := by decide
    exact htexts _ hmem

theorem Word.kind_ne {w : List Char} {kind : TokenKind} {text : String} (h : Word w kind text) :
    kind ≠ .endOfInput := by
  cases h with
  | number _ => exact nofun
  | name _ _ => exact nofun
  | symbol hmem =>
    have hkinds : ∀ s ∈ spellings, s.2.1 ≠ .endOfInput := by decide
    exact hkinds _ hmem

theorem symbol?_of_mem {w : List Char} {kind : TokenKind} {text : String}
    (h : (w, kind, text) ∈ spellings) (cs : List Char) :
    ∃ l, symbol? (w ++ cs) = some l ∧ w.length ≤ l.width ∧
      (l.width = w.length → l = ⟨kind, text, w.length⟩) := by
  have hother : ∀ {c : Char} {kind : TokenKind} {text : String},
      symbol? (c :: cs) = some ⟨kind, text, 1⟩ → ∃ l, symbol? ([c] ++ cs) = some l ∧
        [c].length ≤ l.width ∧ (l.width = [c].length → l = ⟨kind, text, [c].length⟩) :=
    fun heq => ⟨_, heq, le_rfl, fun _ => rfl⟩
  simp only [spellings, List.mem_cons, Prod.mk.injEq, List.not_mem_nil, or_false] at h
  rcases h with ⟨rfl, rfl, rfl⟩ | ⟨rfl, rfl, rfl⟩ | ⟨rfl, rfl, rfl⟩ | ⟨rfl, rfl, rfl⟩ |
    ⟨rfl, rfl, rfl⟩ | ⟨rfl, rfl, rfl⟩ | ⟨rfl, rfl, rfl⟩ | ⟨rfl, rfl, rfl⟩ | ⟨rfl, rfl, rfl⟩
  case inl => exact ⟨_, rfl, le_rfl, fun _ => rfl⟩
  case inr.inr.inr.inr.inl =>
    -- A single `*` is no word of its own in front of another one.
    by_cases hstar : cs.head? = some '*'
    · obtain ⟨cs, rfl⟩ := List.head?_eq_some_iff.1 hstar
      exact ⟨⟨.operator, "^", 2⟩, rfl, by decide, fun h => absurd h (by decide)⟩
    · have hne : ∀ tail, cs = '*' :: tail → False := by
        rintro tail rfl
        exact hstar rfl
      refine hother ?_
      rw [symbol?]
      exact hne
  all_goals exact hother rfl

/-- A number at the front of a text is one token, perhaps together with what follows it. -/
theorem NumberText.lexeme?_eq {w : List Char} {l : Literal} (h : NumberText w l)
    (rest : List Char) : ∃ more after, rest = more ++ after ∧
      lexeme? (w ++ rest) =
        some ⟨.number, String.ofList (w ++ more), (w ++ more).length⟩ := by
  obtain ⟨after, hafter, more, rfl⟩ := afterNumber?_take h rest
  refine ⟨more, after, rfl, ?_⟩
  rw [lexeme?, hafter, ← List.append_assoc]
  exact congrArg some (upTo_append _ _ _)

/-- **The lexer does not take less than a word that a text starts with**, and nothing else of the
same length. -/
theorem lexeme?_of_word {w : List Char} {kind : TokenKind} {text : String}
    (h : Word w kind text) (cs : List Char) :
    ∃ l, lexeme? (w ++ cs) = some l ∧ w.length ≤ l.width ∧
      (l.width = w.length → l = ⟨kind, text, w.length⟩) := by
  -- A number or a name is taken with more characters of its kind.
  have hmore : ∀ {kind : TokenKind} (v : List Char),
      lexeme? (w ++ cs) = some ⟨kind, String.ofList (w ++ v), (w ++ v).length⟩ →
      ∃ l, lexeme? (w ++ cs) = some l ∧ w.length ≤ l.width ∧
        (l.width = w.length → l = ⟨kind, String.ofList w, w.length⟩) := by
    intro kind v hlexeme
    refine ⟨_, hlexeme, by simp, fun hwidth => ?_⟩
    have hv : v = [] := by simpa using hwidth
    rw [hv, List.append_nil]
  cases h with
  | number hn =>
    obtain ⟨v, _, -, hnumber⟩ := hn.lexeme?_eq cs
    exact hmore v hnumber
  | @name c ds hc hds =>
    have hall : ∀ d ∈ ds ++ cs.takeWhile isNameRest, isNameRest d = true := by
      intro d hd
      rcases List.mem_append.1 hd with hd | hd
      · exact hds d hd
      · exact List.mem_takeWhile_imp hd
    have hends : EndsName (cs.dropWhile isNameRest) := by
      intro d hd
      have hnot := List.head?_dropWhile_not isNameRest cs
      rw [Option.mem_def.1 hd] at hnot
      simpa using hnot
    have hname := lexeme?_name hc hall hends
    rw [List.cons_append, List.append_assoc, List.takeWhile_append_dropWhile] at hname
    exact hmore _ hname
  | symbol hmem =>
    obtain ⟨l, hsymbol, hl⟩ := symbol?_of_mem hmem cs
    have hhead : ∀ s ∈ spellings, ∃ c v, s.1 = c :: v ∧ c ∈ marks := by simp [spellings, marks]
    obtain ⟨c, v, rfl, hc⟩ := hhead _ hmem
    exact ⟨l, (lexeme?_mark hc).trans hsymbol, hl⟩

/-- **The longest word at the front of a text**: no other word there, of any kind, has more
characters. -/
structure Longest (w rest : List Char) (kind : TokenKind) (text : String) : Prop where
  word : Word w kind text
  longest : ∀ v k t, Word v k t → v <+: w ++ rest → v.length ≤ w.length

/-- **The lexer takes the longest word.** -/
theorem lexeme?_eq_some_iff {w rest : List Char} {kind : TokenKind} {text : String} :
    lexeme? (w ++ rest) = some ⟨kind, text, w.length⟩ ↔ Longest w rest kind text := by
  constructor
  · intro h
    obtain ⟨v, after, heq, hlength, hv⟩ := lexeme?_eq h
    obtain ⟨rfl, -⟩ := List.append_inj heq hlength
    refine ⟨hv, fun u k t hu hprefix => ?_⟩
    obtain ⟨r, hr⟩ := hprefix
    obtain ⟨l, hl, hle, -⟩ := lexeme?_of_word hu r
    rw [hr, h] at hl
    cases hl
    exact hle
  · intro h
    obtain ⟨l, hl, hle, heq⟩ := lexeme?_of_word h.word rest
    obtain ⟨v, after, hcs, hwidth, hv⟩ := lexeme?_eq hl
    have hge := h.longest v _ _ hv ⟨after, hcs.symm⟩
    rw [hl, heq (le_antisymm (hwidth.trans_le hge) hle)]

/-- **The lexer takes nothing where no word starts.** -/
theorem lexeme?_eq_none_iff {cs : List Char} :
    lexeme? cs = none ↔ ∀ w kind text, Word w kind text → ¬ w <+: cs := by
  constructor
  · rintro h w kind text hw ⟨r, rfl⟩
    obtain ⟨l, hl, -⟩ := lexeme?_of_word hw r
    rw [h] at hl
    cases hl
  · intro h
    cases hl : lexeme? cs with
    | none => rfl
    | some l =>
      obtain ⟨w, rest, rfl, -, hw⟩ := lexeme?_eq hl
      exact absurd (List.prefix_append w rest) (h w _ _ hw)

/-- At one place there is one longest word. -/
theorem Longest.unique {w v rest after : List Char} {kind k : TokenKind} {text t : String}
    (h : Longest w rest kind text) (hv : Longest v after k t) (heq : w ++ rest = v ++ after) :
    w = v := by
  have hle := hv.longest w _ _ h.word (heq ▸ List.prefix_append w rest)
  have hge := h.longest v _ _ hv.word (heq ▸ List.prefix_append v after)
  exact (List.append_inj heq (le_antisymm hle hge)).1

/-! ## Cutting off blanks and longest words -/

/-- **A text cut from the left into blanks and longest words**, as far as to a position where the
rest of the text stands, and the tokens of the words. -/
inductive Munch : ℕ → List Char → List Token → ℕ → List Char → Prop
  | here {p : ℕ} {cs : List Char} : Munch p cs [] p cs
  | blank {p q : ℕ} {c : Char} {cs rest : List Char} {ts : List Token} : isBlank c = true →
      Munch (p + 1) cs ts q rest → Munch p (c :: cs) ts q rest
  | word {p q : ℕ} {w cs rest : List Char} {kind : TokenKind} {text : String} {ts : List Token} :
      Longest w cs kind text → Munch (p + w.length) cs ts q rest →
      Munch p (w ++ cs) (⟨kind, text, p⟩ :: ts) q rest

variable {p q : ℕ} {cs rest : List Char} {ts : List Token}

theorem Munch.position_eq (h : Munch p cs ts q rest) :
    q + rest.length = p + cs.length := by
  induction h with
  | here => rfl
  | blank _ _ ih =>
    rw [ih, List.length_cons]
    omega
  | word _ _ ih =>
    rw [ih, List.length_append]
    omega

/-- The scan goes through what is cut off, and on with the rest. -/
theorem scan_munch (h : Munch p cs ts q rest) :
    scan p cs = (ts ++ (scan q rest).1, (scan q rest).2) := by
  induction h with
  | here => rfl
  | blank hblank _ ih => rw [scan_blank hblank, ih]
  | @word p q w cs rest kind text ts hw _ ih =>
    have hblank := hw.word.not_blank
    have hlexeme := lexeme?_eq_some_iff.2 hw
    cases w with
    | nil => exact absurd rfl hw.word.ne_nil
    | cons c w =>
      rw [List.length_cons] at ih
      rw [scan_lexeme (hblank c (List.mem_cons_self ..)) hlexeme, ih]
      rfl

/-- Every text can be cut to its end, or to a character that starts no word. -/
theorem exists_munch (p : ℕ) (cs : List Char) : ∃ ts q rest, Munch p cs ts q rest ∧
    (rest = [] ∨ ∃ c v, rest = c :: v ∧ isBlank c = false ∧ lexeme? rest = none) := by
  induction hn : cs.length using Nat.strong_induction_on generalizing p cs with
  | _ n ih =>
    subst hn
    cases shape cs with
    | finish => exact ⟨[], p, [], .here, Or.inl rfl⟩
    | @blank c cs hblank =>
      obtain ⟨ts, q, rest, hmunch, hrest⟩ := ih _ (by simp) (p + 1) cs rfl
      exact ⟨ts, q, rest, .blank hblank hmunch, hrest⟩
    | @word c w cs kind text _ hlexeme _ =>
      obtain ⟨ts, q, rest, hmunch, hrest⟩ := ih _ (by simp) (p + (c :: w).length) cs rfl
      exact ⟨_, q, rest, .word (lexeme?_eq_some_iff.1 hlexeme) hmunch, hrest⟩
    | @stop c cs hblank hnone => exact ⟨[], p, _, .here, Or.inr ⟨c, cs, rfl, hblank, hnone⟩⟩

/-! ## Where the tokens stand -/

/-- **The source of a token in a text**: the longest word at the token's position, which has the
kind and the text of the token. -/
def SourceOf (cs : List Char) (t : Token) (w : List Char) : Prop :=
  ∃ u v, cs = u ++ (w ++ v) ∧ t.position = u.length ∧ Longest w v t.kind t.text

theorem SourceOf.unique {t : Token} {w v : List Char} (h : SourceOf cs t w)
    (hv : SourceOf cs t v) : w = v := by
  obtain ⟨u, r, rfl, hposition, hw⟩ := h
  obtain ⟨u', r', heq, hposition', hv⟩ := hv
  have hlength : u.length = u'.length := by
    rw [hposition] at hposition'
    exact_mod_cast hposition'
  exact hw.unique hv (List.append_inj heq hlength).2

/-- A token of the part cut off a text stands where its source is, in this part. -/
theorem Munch.exists_source (h : Munch p cs ts q rest) (u : List Char) (hu : u.length = p)
    {t : Token} (ht : t ∈ ts) : ∃ w, SourceOf (u ++ cs) t w ∧ (p : ℤ) ≤ t.position := by
  induction h generalizing u with
  | here => cases ht
  | @blank p q c cs rest ts _ _ ih =>
    obtain ⟨w, hw, hle⟩ := ih (u ++ [c]) (by simp [hu]) ht
    rw [List.append_assoc] at hw
    exact ⟨w, hw, by omega⟩
  | @word p q w cs rest kind text ts hw _ ih =>
    rcases List.mem_cons.1 ht with rfl | ht
    · exact ⟨w, ⟨u, cs, rfl, congrArg Nat.cast hu.symm, hw⟩, le_rfl⟩
    · obtain ⟨v, hv, hle⟩ := ih (u ++ w) (by simp [hu]) ht
      rw [List.append_assoc] at hv
      exact ⟨v, hv, by omega⟩

/-- The sources of the tokens follow each other. -/
theorem Munch.pairwise (h : Munch p cs ts q rest) (u : List Char) (hu : u.length = p) :
    ts.Pairwise fun a b => ∀ w, SourceOf (u ++ cs) a w → a.position + w.length ≤ b.position := by
  induction h generalizing u with
  | here => exact .nil
  | @blank p q c cs rest ts _ _ ih =>
    have htail := ih (u ++ [c]) (by simp [hu])
    rwa [List.append_assoc] at htail
  | @word p q w cs rest kind text ts hw hmunch ih =>
    have htail := ih (u ++ w) (by simp [hu])
    rw [List.append_assoc] at htail
    refine .cons (fun b hb v hv => ?_) htail
    have hsource : SourceOf (u ++ (w ++ cs)) ⟨kind, text, p⟩ w :=
      ⟨u, cs, rfl, congrArg Nat.cast hu.symm, hw⟩
    obtain ⟨-, -, hle⟩ := hmunch.exists_source (u ++ w) (by simp [hu]) hb
    rw [← hsource.unique hv]
    exact_mod_cast hle

/-- The character at a place of a text belongs to the source of one of the tokens. -/
def Covered (cs : List Char) (ts : List Token) (i : ℕ) : Prop :=
  ∃ t ∈ ts, ∃ w, SourceOf cs t w ∧ t.position ≤ i ∧ (i : ℤ) < t.position + w.length

/-- **The tokens cover what is no blank**, and nothing else, in the part cut off a text. -/
theorem Munch.covered_iff (h : Munch p cs ts q rest) (u : List Char) (hu : u.length = p)
    {i : ℕ} {c : Char} (hc : (u ++ cs)[i]? = some c) (hp : p ≤ i) (hq : i < q) :
    isBlank c = false ↔ Covered (u ++ cs) ts i := by
  induction h generalizing u with
  | here => omega
  | @blank p q d cs rest ts hblank hmunch ih =>
    rcases hp.eq_or_lt with rfl | hlt
    · -- The blank itself: all tokens stand behind it.
      have hd : c = d := by simpa [← hu] using hc.symm
      subst hd
      refine ⟨fun hfalse => absurd (hblank.symm.trans hfalse) (by decide), ?_⟩
      rintro ⟨t, ht, -, -, hle, -⟩
      obtain ⟨-, -, hge⟩ := hmunch.exists_source (u ++ [c]) (by simp [hu]) ht
      omega
    · have htail := ih (u ++ [d]) (by simp [hu]) (by simpa using hc) hlt hq
      rwa [List.append_assoc] at htail
  | @word p q w cs rest kind text ts hw hmunch ih =>
    have hsource : SourceOf (u ++ (w ++ cs)) ⟨kind, text, p⟩ w :=
      ⟨u, cs, rfl, congrArg Nat.cast hu.symm, hw⟩
    by_cases hin : i < p + w.length
    · -- Inside the word there is no blank.
      have hmem : c ∈ w := by
        rw [List.getElem?_append_right (by omega), List.getElem?_append_left (by omega)] at hc
        exact List.mem_of_getElem? hc
      have hcovers : (p : ℤ) ≤ i ∧ (i : ℤ) < p + w.length := by omega
      exact ⟨fun _ => ⟨_, List.mem_cons_self .., w, hsource, hcovers⟩,
        fun _ => hw.word.not_blank c hmem⟩
    · have htail := ih (u ++ w) (by simp [hu]) (by simpa using hc) (by omega) hq
      rw [List.append_assoc] at htail
      rw [htail]
      constructor
      · rintro ⟨t, ht, hcovers⟩
        exact ⟨t, List.mem_cons_of_mem _ ht, hcovers⟩
      · rintro ⟨t, ht, v, hv, hle, hlt⟩
        rcases List.mem_cons.1 ht with rfl | ht
        · have hbeyond : (i : ℤ) < p + w.length := by rwa [hsource.unique hv]
          omega
        · exact ⟨t, ht, v, hv, hle, hlt⟩

/-- **The lexer cuts a line into blanks and longest words, and loses nothing.**  It answers the
tokens of the line cut to its end, with the end of the input after them; and it stops exactly at a
character that is no blank and starts no word, all before it being cut.  Of the part cut off, every
token is a word, the longest one at its position, with the word as its text (and `^` for `**`); the
words follow each other and cover exactly the characters that are no blanks. -/
theorem tokenize_munch (line : String) :
    (∀ ts, tokenize line = .ok ts ↔ ∃ us, Munch 0 line.toList us line.length [] ∧
      ts = us ++ [.finish line.length]) ∧
    (∀ e, tokenize line = .error e ↔ ∃ us p v, Munch 0 line.toList us p (e.character :: v) ∧
      e.position = p ∧ isBlank e.character = false ∧
      ∀ w kind text, Word w kind text → ¬ w <+: e.character :: v) ∧
    ∀ us p rest, Munch 0 line.toList us p rest →
      (∀ t ∈ us, t.kind ≠ .endOfInput ∧ ∃ w, SourceOf line.toList t w ∧
        t.text = if w = ['*', '*'] then "^" else String.ofList w) ∧
      (us.Pairwise fun a b =>
        ∀ w, SourceOf line.toList a w → a.position + w.length ≤ b.position) ∧
      ∀ i c, line.toList[i]? = some c → i < p →
        (isBlank c = false ↔ Covered line.toList us i) := by
  have hok : ∀ {us}, Munch 0 line.toList us line.length [] →
      tokenize line = .ok (us ++ [.finish line.length]) := by
    intro us h
    rw [tokenize, scan_munch h, scan]
  have herror : ∀ {us p c v}, Munch 0 line.toList us p (c :: v) → isBlank c = false →
      lexeme? (c :: v) = none → tokenize line = .error ⟨p, c⟩ := by
    intro us p c v h hblank hnone
    rw [tokenize, scan_munch h, scan_stop hblank hnone]
  obtain ⟨us, q, rest, hmunch, hrest⟩ := exists_munch 0 line.toList
  have hend : rest = [] → q = line.length := by
    rintro rfl
    have hq := hmunch.position_eq
    rwa [String.length_toList, zero_add] at hq
  refine ⟨fun ts => ⟨fun h => ?_, ?_⟩, fun e => ⟨fun h => ?_, ?_⟩, fun us p rest h => ?_⟩
  · rcases hrest with rfl | ⟨c, v, rfl, hblank, hnone⟩
    · cases hend rfl
      rw [hok hmunch] at h
      cases h
      exact ⟨us, hmunch, rfl⟩
    · rw [herror hmunch hblank hnone] at h
      cases h
  · rintro ⟨us, h, rfl⟩
    exact hok h
  · rcases hrest with rfl | ⟨c, v, rfl, hblank, hnone⟩
    · cases hend rfl
      rw [hok hmunch] at h
      cases h
    · rw [herror hmunch hblank hnone] at h
      cases h
      exact ⟨us, q, v, hmunch, rfl, hblank, lexeme?_eq_none_iff.1 hnone⟩
  · rintro ⟨us, p, v, h, hposition, hblank, hnone⟩
    rw [herror h hblank (lexeme?_eq_none_iff.2 hnone), ← hposition]
  · refine ⟨fun t ht => ?_, h.pairwise [] rfl, fun i c hc hi => ?_⟩
    · obtain ⟨w, ⟨u, v, hline, hposition, hw⟩, -⟩ := h.exists_source [] rfl ht
      exact ⟨hw.word.kind_ne, w, ⟨u, v, hline, hposition, hw⟩, hw.word.text_eq⟩
    · exact h.covered_iff [] rfl hc (Nat.zero_le i) hi

/-- A group that is not closed is no part of the number before it. -/
example : tokenize "1.(3" = .ok [⟨.number, "1.", 0⟩, ⟨.leftParen, "(", 2⟩, ⟨.number, "3", 3⟩,
    .finish 4] := by decide +kernel

end Roundoff.Lexer
