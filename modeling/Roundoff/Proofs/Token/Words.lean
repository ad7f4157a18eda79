import Roundoff.Proofs.Token.Lexing

/-! # Words that the lexer takes whole

The lexer takes the longest number or name there is, so a number or a name in a text is one token
when nothing follows that could belong to it.  A text put together from numbers, names, marks and
blanks then comes apart into the same words.
-/
namespace Roundoff.Lexer

open Text (isAsciiDigit isBlank)
open Literal (SignText MantissaText GroupText ScaleText NoDigit mantissa? group? scale?)

/-- A number does not go on in the text. -/
def EndsNumber (rest : List Char) : Prop :=
  ∀ c ∈ rest.head?, isAsciiDigit c = false ∧ c ∉ ['.', '(', 'e', 'E']

theorem endsNumber_nil : EndsNumber [] := by
  intro c hc
  cases hc

theorem endsNumber_blank {c : Char} {cs : List Char} (h : isBlank c = true) :
    EndsNumber (c :: cs) := by
  have hne : ∀ {d : Char}, isBlank d = false → c ≠ d := by
    rintro d hd rfl
    rw [h] at hd
    cases hd
  intro d hd
  cases hd
  refine ⟨?_, ?_⟩
  · by_contra hdigit
    exact hne (Numeral.isBlank_of_isAsciiDigit (Bool.eq_true_of_not_eq_false hdigit)) rfl
  · simp only [List.mem_cons, List.not_mem_nil, or_false, not_or]
    exact ⟨hne (by decide), hne (by decide), hne (by decide), hne (by decide)⟩

theorem endsNumber_bar (cs : List Char) : EndsNumber ('/' :: cs) := by
  intro c hc
  cases hc
  decide

/-- A number does not go on behind blanks either. -/
theorem EndsNumber.blanks {u rest : List Char} (hu : ∀ c ∈ u, isBlank c = true)
    (h : EndsNumber rest) : EndsNumber (u ++ rest) := by
  cases u with
  | nil => exact h
  | cons c u => exact endsNumber_blank (hu c (List.mem_cons_self ..))

theorem endsNumber_blanks {v : List Char} (hv : ∀ c ∈ v, isBlank c = true) : EndsNumber v := by
  rw [← List.append_nil v]
  exact endsNumber_nil.blanks hv

/-! ## Numbers -/

theorem group?_eq_none {cs : List Char} (h : ∀ c ∈ cs.head?, c ≠ '(') : group? cs = none := by
  unfold group?
  split
  · exact absurd rfl (h _ rfl)
  · rfl

theorem scale?_eq_none {cs : List Char} (h : ∀ c ∈ cs.head?, c ≠ 'e' ∧ c ≠ 'E') :
    scale? cs = none := by
  cases cs with
  | nil => rfl
  | cons c cs =>
    have hc := h c rfl
    exact if_neg (not_or.2 hc)

theorem scale?_append {e rest : List Char} {x : ℤ} (h : ScaleText e x) (he : e ≠ [])
    (hr : NoDigit rest) : ∃ ds, scale? (e ++ rest) = some (ds, rest) := by
  cases h with
  | none => exact absurd rfl he
  | @power c sgn ds negative hc hsgn hd =>
    have hhead : ∀ {d : Char}, isAsciiDigit d = false → (ds ++ rest).head? ≠ some d := by
      intro d hdigit
      rw [List.head?_append_of_ne_nil _ hd.ne_nil]
      exact hd.head_ne hdigit
    have hsign : Literal.sign (sgn ++ (ds ++ rest)) = (sgn, ds ++ rest) :=
      (Literal.sign_append hsgn (hhead (by decide)) (hhead (by decide))).1
    refine ⟨sgn ++ ds, ?_⟩
    rw [List.cons_append, List.append_assoc]
    unfold scale?
    dsimp only
    rw [if_pos hc, hsign]
    simp [Literal.takeWhile_digits hd.all hr, Literal.dropWhile_digits hd.all hr, hd.ne_nil]

theorem scale?_getD {e rest : List Char} {x : ℤ} (h : ScaleText e x) (hr : EndsNumber rest) :
    ((scale? (e ++ rest)).map (·.2)).getD (e ++ rest) = rest := by
  by_cases he : e = []
  · subst he
    rw [List.nil_append, scale?_eq_none fun c hc => ?_]
    · rfl
    · have := (hr c hc).2
      simp only [List.mem_cons, List.not_mem_nil, or_false, not_or] at this
      exact ⟨this.2.2.1, this.2.2.2⟩
  · obtain ⟨ds, hds⟩ := scale?_append h he fun c hc => (hr c hc).1
    rw [hds]
    rfl

/-- What follows the mantissa of a number: a group, a power of ten, or what follows the number. -/
theorem head_after {g r e rest : List Char} {x : ℤ} (hg : GroupText g r) (he : ScaleText e x)
    (hr : g ++ e = [] → EndsNumber rest) :
    ∀ c ∈ (g ++ (e ++ rest)).head?, isAsciiDigit c = false ∧ c ≠ '.' := by
  intro c hc
  rw [← List.append_assoc] at hc
  by_cases hnil : g ++ e = []
  · rw [hnil, List.nil_append] at hc
    have := hr hnil c hc
    exact ⟨this.1, fun heq => this.2 (by simp [heq])⟩
  · rw [List.head?_append_of_ne_nil _ hnil] at hc
    rcases Literal.head_group_scale hg he c hc with rfl | rfl | rfl <;> decide

theorem group?_getD {g r e rest : List Char} {x : ℤ} (hg : GroupText g r) (he : ScaleText e x)
    (hr : g ++ e = [] → EndsNumber rest) :
    ((group? (g ++ (e ++ rest))).map (·.2)).getD (g ++ (e ++ rest)) = e ++ rest := by
  by_cases hnil : g = []
  · subst hnil
    rw [List.nil_append, group?_eq_none fun c hc => ?_]
    · rfl
    · by_cases hempty : e = []
      · rw [hempty, List.nil_append] at hc
        exact fun heq => (hr hempty c hc).2 (by simp [heq])
      · rw [List.head?_append_of_ne_nil _ hempty] at hc
        rcases he.head c hc with rfl | rfl <;> decide
  · rw [Literal.group?_append hg hnil]
    rfl

/-- Between the mantissa and what follows, a number has its group and its power of ten. -/
theorem afterNumber?_mantissa {m g e i f r rest : List Char} {point : Bool} {x : ℤ}
    (hm : MantissaText m i f point) (hg : GroupText g r) (hpoint : point = false → g = [])
    (he : ScaleText e x) (hr : g ++ e = [] → EndsNumber rest) :
    afterNumber? (m ++ (g ++ (e ++ rest))) =
      some (((scale? (e ++ rest)).map (·.2)).getD (e ++ rest)) := by
  have hhead := head_after hg he hr
  have hdigit : Literal.NoDigit (g ++ (e ++ rest)) := fun c hc => (hhead c hc).1
  obtain ⟨i', frac, hmantissa, -, -, hfrac⟩ :=
    Literal.mantissa?_append hm hdigit fun _ heq => (hhead _ heq).2 rfl
  rw [afterNumber?, hmantissa]
  simp only [Option.bind_eq_bind, Option.bind_some, hfrac]
  by_cases hpt : point = true
  · rw [if_pos hpt, group?_getD hg he hr]
    rfl
  · -- Without a point there is no group.
    rw [if_neg hpt, hpoint (Bool.eq_false_of_not_eq_true hpt), List.nil_append]
    rfl

/-- **A number is read to its end.** -/
theorem afterNumber?_append {w rest : List Char} {l : Literal} (h : NumberText w l)
    (hr : EndsNumber rest) : afterNumber? (w ++ rest) = some rest := by
  obtain ⟨hm, hg, hpoint, he⟩ := h
  rw [List.append_assoc, List.append_assoc,
    afterNumber?_mantissa hm hg hpoint he (fun _ => hr), scale?_getD he hr]

theorem lexeme?_number {w rest : List Char} {l : Literal} (h : NumberText w l)
    (hr : EndsNumber rest) :
    lexeme? (w ++ rest) = some ⟨.number, String.ofList w, w.length⟩ := by
  rw [lexeme?, afterNumber?_append h hr]
  exact congrArg some (upTo_append _ _ _)

/-! ## Names and marks -/

/-- A name does not go on in the text. -/
def EndsName (rest : List Char) : Prop :=
  ∀ c ∈ rest.head?, isNameRest c = false

/-- The text is a name. -/
def IsName (cs : List Char) : Prop :=
  ∃ c ds, cs = c :: ds ∧ isNameStart c = true ∧ ∀ d ∈ ds, isNameRest d = true

theorem Word.isName {w : List Char} {text : String} (h : Word w .identifier text) :
    text.toList = w ∧ IsName w := by
  cases h with
  | name hc hds => exact ⟨String.toList_ofList, _, _, rfl, hc, hds⟩
  | symbol hmem => simp [spellings] at hmem

/-- The characters that are marks by themselves. -/
def marks : List Char := ['^', '+', '-', '*', '/', '(', ')', ',']

theorem isNameStart_iff {c : Char} : isNameStart c = true ↔
    (97 ≤ c.toNat ∧ c.toNat ≤ 122) ∨ (65 ≤ c.toNat ∧ c.toNat ≤ 90) ∨ c = '_' := by
  have hrange : ∀ {a b : Char}, (a ≤ b) ↔ a.toNat ≤ b.toNat := Iff.rfl
  simp only [isNameStart, Bool.or_eq_true, Bool.and_eq_true, decide_eq_true_eq, beq_iff_eq, hrange,
    or_assoc]
  rfl

theorem isBlank_of_isNameStart {c : Char} (h : isNameStart c = true) : isBlank c = false := by
  rcases isNameStart_iff.1 h with ⟨hlow, hhigh⟩ | ⟨hlow, hhigh⟩ | rfl
  · show Text.inRanges Text.blankRanges c.toNat = false
    generalize c.toNat = n at hlow hhigh
    interval_cases n <;> rfl
  · show Text.inRanges Text.blankRanges c.toNat = false
    generalize c.toNat = n at hlow hhigh
    interval_cases n <;> rfl
  · decide

/-- No number starts with the first character of a name. -/
theorem isAsciiDigit_of_isNameStart {c : Char} (h : isNameStart c = true) :
    isAsciiDigit c = false ∧ c ≠ '.' := by
  have hbeyond : 57 < c.toNat := by
    rcases isNameStart_iff.1 h with hc | hc | rfl
    · omega
    · omega
    · decide
  refine ⟨Bool.eq_false_of_not_eq_true fun hdigit => ?_, ?_⟩
  · exact absurd (Numeral.isAsciiDigit_iff.1 hdigit).2 (not_le.2 hbeyond)
  · rintro rfl
    exact absurd hbeyond (by decide)

theorem afterNumber?_eq_none {c : Char} {cs : List Char} (hdigit : isAsciiDigit c = false)
    (hpoint : c ≠ '.') : afterNumber? (c :: cs) = none := by
  have hmantissa : mantissa? (c :: cs) = none := by
    unfold mantissa?
    rw [List.takeWhile_cons_of_neg (by simp [hdigit]),
      List.dropWhile_cons_of_neg (by simp [hdigit])]
    split
    · rename_i rest hcons
      exact absurd (List.cons.inj hcons).1 hpoint
    · rfl
  rw [afterNumber?, hmantissa]
  rfl

theorem lexeme?_name {c : Char} {ds rest : List Char} (hc : isNameStart c = true)
    (hds : ∀ d ∈ ds, isNameRest d = true) (hr : EndsName rest) :
    lexeme? (c :: ds ++ rest) = some ⟨.identifier, String.ofList (c :: ds), ds.length + 1⟩ := by
  obtain ⟨hdigit, hpoint⟩ := isAsciiDigit_of_isNameStart hc
  have hdrop : (ds ++ rest).dropWhile isNameRest = rest := by
    rw [List.dropWhile_append_of_pos hds]
    cases rest with
    | nil => rfl
    | cons d rest => exact List.dropWhile_cons_of_neg (by simp [hr d rfl])
  have hafter : afterName? (c :: ds ++ rest) = some rest := by
    rw [List.cons_append, afterName?, if_pos hc, hdrop]
  have hnumber : afterNumber? (c :: ds ++ rest) = none := afterNumber?_eq_none hdigit hpoint
  rw [lexeme?, hnumber, hafter]
  exact congrArg some (upTo_append _ (c :: ds) rest)

theorem mark_start : ∀ c ∈ marks,
    isBlank c = false ∧ isAsciiDigit c = false ∧ c ≠ '.' ∧ isNameStart c = false := by
  intro c hc
  fin_cases hc <;> decide

theorem lexeme?_mark {c : Char} {cs : List Char} (hc : c ∈ marks) :
    lexeme? (c :: cs) = symbol? (c :: cs) := by
  obtain ⟨-, hdigit, hpoint, hname⟩ := mark_start c hc
  rw [lexeme?, afterNumber?_eq_none hdigit hpoint, afterName?, if_neg (by simp [hname])]

/-! ## Texts of several words -/

variable {p : ℕ} {rest : List Char} {ts : List Token}

theorem scan_blanks {u : List Char} (hu : ∀ c ∈ u, isBlank c = true) :
    scan p (u ++ rest) = scan (p + u.length) rest := by
  induction u generalizing p with
  | nil => rfl
  | cons c u ih =>
    rw [List.cons_append, scan_blank (hu c (List.mem_cons_self ..)),
      ih fun d hd => hu d (List.mem_cons_of_mem _ hd), List.length_cons, add_assoc, add_comm 1]

theorem scan_number {w : List Char} {l : Literal} (h : NumberText w l) (hr : EndsNumber rest)
    (hrest : scan (p + w.length) rest = (ts, none)) :
    scan p (w ++ rest) = (⟨.number, String.ofList w, p⟩ :: ts, none) := by
  have hblank := h.not_blank
  have hlexeme := lexeme?_number h hr
  cases w with
  | nil => exact absurd rfl h.ne_nil
  | cons c w =>
    rw [List.length_cons] at hrest hlexeme
    rw [scan_lexeme (hblank c (List.mem_cons_self ..)) hlexeme, hrest]

theorem scan_symbol {c : Char} {kind : TokenKind} {text : String} (hc : c ∈ marks)
    (hsymbol : symbol? (c :: rest) = some ⟨kind, text, 1⟩)
    (hrest : scan (p + 1) rest = (ts, none)) :
    scan p (c :: rest) = (⟨kind, text, p⟩ :: ts, none) := by
  have hscan := scan_lexeme (p := p) (w := []) (mark_start c hc).1
    ((lexeme?_mark hc).trans hsymbol)
  rw [List.length_nil, zero_add, hrest] at hscan
  exact hscan

theorem scan_name {w : List Char} (hw : IsName w) (hr : EndsName rest)
    (hrest : scan (p + w.length) rest = (ts, none)) :
    scan p (w ++ rest) = (⟨.identifier, String.ofList w, p⟩ :: ts, none) := by
  obtain ⟨c, ds, rfl, hc, hds⟩ := hw
  rw [List.length_cons] at hrest
  rw [scan_lexeme (isBlank_of_isNameStart hc) (lexeme?_name hc hds hr), hrest]

theorem scan_end {v : List Char} (hv : ∀ c ∈ v, isBlank c = true) (p : ℕ) :
    ∃ k, scan p v = ([.finish k], none) := by
  refine ⟨(p + v.length : ℕ), ?_⟩
  rw [← List.append_nil v, scan_blanks hv, scan, List.append_nil]

/-! ## Texts in front of others -/

/-- In front of what follows, the text is scanned as a phrase of some kind. -/
def Reads (F : List Char → Prop) (w : List Char) (P : List Token → Prop) : Prop :=
  ∀ (p : ℕ) (rest : List Char) (ts : List Token), F rest →
    scan (p + w.length) rest = (ts, none) →
    ∃ phrase, scan p (w ++ rest) = (phrase ++ ts, none) ∧ P phrase

/-- The phrase is one token of this kind and text. -/
def IsToken (kind : TokenKind) (text : String) (phrase : List Token) : Prop :=
  ∃ q, phrase = [⟨kind, text, q⟩]

/-- What can stand behind an operand. -/
def EndsOperand (rest : List Char) : Prop :=
  ∀ c ∈ rest.head?, c ∈ [' ', ')', ',']

variable {F G : List Char → Prop} {w v : List Char} {P Q R : List Token → Prop}

theorem Reads.mono (h : Reads F w P) (hfollow : ∀ rest, G rest → F rest)
    (hphrase : ∀ ts, P ts → Q ts) : Reads G w Q := by
  intro p rest ts hrest hscan
  obtain ⟨phrase, heq, hP⟩ := h p rest ts (hfollow rest hrest) hscan
  exact ⟨phrase, heq, hphrase phrase hP⟩

/-- A text put together from two is scanned as the two phrases together. -/
theorem Reads.append (hw : Reads F w P) (hv : Reads G v Q)
    (hfollow : ∀ rest, G rest → F (v ++ rest))
    (hjoin : ∀ xs ys, P xs → Q ys → R (xs ++ ys)) : Reads G (w ++ v) R := by
  intro p rest ts hrest hscan
  rw [List.length_append, ← add_assoc] at hscan
  obtain ⟨ys, hys, hQ⟩ := hv _ _ _ hrest hscan
  obtain ⟨xs, hxs, hP⟩ := hw _ _ _ (hfollow rest hrest) hys
  refine ⟨xs ++ ys, ?_, hjoin xs ys hP hQ⟩
  rw [List.append_assoc, List.append_assoc]
  exact hxs

/-- A blank in front changes nothing. -/
theorem Reads.blank (h : Reads F w P) : Reads F (' ' :: w) P := by
  intro p rest ts hrest hscan
  rw [List.length_cons, add_comm w.length, ← add_assoc] at hscan
  obtain ⟨phrase, hphrase, hP⟩ := h _ _ _ hrest hscan
  exact ⟨phrase, (scan_blank (by decide)).trans hphrase, hP⟩

theorem reads_mark {c : Char} {kind : TokenKind} {text : String} (hc : c ∈ marks)
    (hsymbol : ∀ rest, F rest → symbol? (c :: rest) = some ⟨kind, text, 1⟩) :
    Reads F [c] (IsToken kind text) := by
  intro p rest ts hrest hscan
  exact ⟨[⟨kind, text, p⟩], scan_symbol hc (hsymbol rest hrest) hscan, p, rfl⟩

theorem endsName_of_endsOperand {rest : List Char} (h : EndsOperand rest) : EndsName rest := by
  intro c hc
  have hmem := h c hc
  fin_cases hmem <;> decide

theorem endsName_opening {cs : List Char} : EndsName ('(' :: cs) := by
  intro c hc
  cases hc
  decide

theorem endsNumber_of_endsOperand {rest : List Char} (h : EndsOperand rest) : EndsNumber rest := by
  intro c hc
  have hmem := h c hc
  fin_cases hmem <;> decide

theorem endsOperand_cons {c : Char} {cs : List Char} (hc : c ∈ [' ', ')', ',']) :
    EndsOperand (c :: cs) := by
  intro d hd
  cases hd
  exact hc

theorem reads_name {n : String} (hn : IsName n.toList) :
    Reads EndsName n.toList (IsToken .identifier n) := by
  intro p rest ts hrest hscan
  have hname := scan_name hn hrest hscan
  rw [String.ofList_toList] at hname
  exact ⟨[⟨.identifier, n, p⟩], hname, p, rfl⟩

/-- A text that is one number token is a number. -/
theorem numberText_of_tokenize {t : String} {q k : ℤ}
    (h : tokenize t = .ok [⟨.number, t, q⟩, .finish k]) : ∃ l, NumberText t.toList l := by
  obtain ⟨l, hl, -⟩ := (tokenize_eq_ok h).number_of_mem (List.mem_cons_self ..) rfl
  exact ⟨l, hl⟩

theorem reads_number {t : String} {l : Literal} (ht : NumberText t.toList l) :
    Reads EndsNumber t.toList (IsToken .number t) := by
  intro p rest ts hrest hscan
  have hnumber := scan_number ht hrest hscan
  rw [String.ofList_toList] at hnumber
  exact ⟨[⟨.number, t, p⟩], hnumber, p, rfl⟩

end Roundoff.Lexer
