import Roundoff.Token.Lexer
import Roundoff.Proofs.Literal.Spelling
import Roundoff.Proofs.Numeral.Written

/-! # What the lexer cuts

A line is cut into words with blanks between them (`Cut`): numbers in the grammar of literals
without a sign, names, and the spellings of operators and punctuation marks.  The lexer takes one
word off the front at a time (`lexeme?_eq`), so what it answers is such a cut (`scan_cut`), and
everything known about the tokens of a line follows by induction on the cut.
-/
namespace Roundoff.Lexer

open Text (isAsciiDigit isBlank)
open Literal (SignText MantissaText GroupText ScaleText Spells mantissa? group? scale?)
open Numeral (Digits)

/-! ## Words -/

/-- How a number without a sign is written. -/
inductive NumberText : List Char → Literal → Prop
  | mk {m g e i f r : List Char} {point : Bool} {x : ℤ} : MantissaText m i f point →
      GroupText g r → (point = false → g = []) → ScaleText e x →
      NumberText (m ++ (g ++ e)) ⟨false, i, f, r, x⟩

/-- The spellings of operators and punctuation marks, with the tokens they stand for. -/
def spellings : List (List Char × TokenKind × String) :=
  [(['*', '*'], .operator, "^"), (['^'], .operator, "^"), (['+'], .operator, "+"),
    (['-'], .operator, "-"), (['*'], .operator, "*"), (['/'], .operator, "/"),
    (['('], .leftParen, "("), ([')'], .rightParen, ")"), ([','], .comma, ",")]

/-- **The words of a line**: the characters, and the kind and the text of the token. -/
inductive Word : List Char → TokenKind → String → Prop
  | number {w : List Char} {l : Literal} : NumberText w l → Word w .number (String.ofList w)
  | name {c : Char} {cs : List Char} : isNameStart c = true → (∀ d ∈ cs, isNameRest d = true) →
      Word (c :: cs) .identifier (String.ofList (c :: cs))
  | symbol {w : List Char} {kind : TokenKind} {text : String} : (w, kind, text) ∈ spellings →
      Word w kind text

/-- **A text cut into words**, with blanks between them, and the tokens of the words. -/
inductive Cut : ℕ → List Char → List Token → Prop
  | finish {p : ℕ} : Cut p [] [.finish p]
  | blank {p : ℕ} {c : Char} {cs : List Char} {ts : List Token} : isBlank c = true →
      Cut (p + 1) cs ts → Cut p (c :: cs) ts
  | word {p : ℕ} {w cs : List Char} {kind : TokenKind} {text : String} {ts : List Token} :
      Word w kind text → Cut (p + w.length) cs ts → Cut p (w ++ cs) (⟨kind, text, p⟩ :: ts)

/-- A number without a sign is a decimal literal. -/
theorem NumberText.spells {w : List Char} {l : Literal} (h : NumberText w l) : Spells w l := by
  obtain ⟨hm, hg, hpoint, he⟩ := h
  exact .mk .none hm hg hpoint he

theorem NumberText.ne_nil {w : List Char} {l : Literal} (h : NumberText w l) : w ≠ [] :=
  h.spells.ne_nil

theorem NumberText.not_blank {w : List Char} {l : Literal} (h : NumberText w l) :
    ∀ c ∈ w, isBlank c = false :=
  h.spells.not_blank

theorem NumberText.trim_eq {w : List Char} {l : Literal} (h : NumberText w l) :
    Text.trim w = w :=
  Text.trimAll_eq_self h.not_blank

/-- The exponent of a number has no more digits than the number. -/
theorem NumberText.exponent_lt {w : List Char} {l : Literal} (h : NumberText w l) :
    l.exponent.natAbs < 10 ^ w.length := by
  obtain ⟨-, -, -, he⟩ := h
  dsimp only
  cases he with
  | none => exact Nat.pow_pos (by decide)
  | @power c sgn ds negative _ _ hd =>
    have hnat : (Literal.signed negative (Numeral.positional ds)).natAbs
        = Numeral.positional ds := by
      cases negative
      · exact Int.natAbs_natCast _
      · exact (Int.natAbs_neg _).trans (Int.natAbs_natCast _)
    rw [hnat]
    refine (Numeral.positional_lt hd.all).trans_le (Nat.pow_le_pow_right (by decide) ?_)
    simp only [List.length_append, List.length_cons]
    omega

theorem Word.ne_nil {w : List Char} {kind : TokenKind} {text : String} (h : Word w kind text) :
    w ≠ [] := by
  cases h with
  | number hn => exact hn.ne_nil
  | name _ _ => exact List.cons_ne_nil _ _
  | symbol hmem =>
    rintro rfl
    simp [spellings] at hmem

/-! ## Taking a word off -/

theorem group_off (cs : List Char) :
    ∃ g r, GroupText g r ∧ cs = g ++ ((group? cs).map (·.2)).getD cs := by
  cases h : group? cs with
  | none => exact ⟨[], [], .none, rfl⟩
  | some p =>
    obtain ⟨r, rest⟩ := p
    obtain ⟨-, g, hcs, -, hg⟩ := Literal.group?_eq h
    exact ⟨g, r, hg, hcs⟩

theorem scale_off (cs : List Char) :
    ∃ e x, ScaleText e x ∧ cs = e ++ ((scale? cs).map (·.2)).getD cs := by
  cases h : scale? cs with
  | none => exact ⟨[], 0, .none, rfl⟩
  | some p =>
    obtain ⟨ds, rest⟩ := p
    obtain ⟨e, x, hcs, he, -⟩ := Literal.scale?_eq h
    exact ⟨e, x, he, hcs⟩

theorem afterNumber?_eq {cs rest : List Char} (h : afterNumber? cs = some rest) :
    ∃ w l, cs = w ++ rest ∧ NumberText w l := by
  unfold afterNumber? at h
  cases hm : mantissa? cs with
  | none =>
    rw [hm] at h
    cases h
  | some p =>
    obtain ⟨i, frac, more⟩ := p
    obtain ⟨m, hcs, hmantissa, -⟩ := Literal.mantissa?_eq hm
    rw [hm] at h
    cases frac with
    | none =>
      obtain ⟨e, x, he, hmore⟩ := scale_off more
      cases h
      refine ⟨m ++ ([] ++ e), _, ?_, .mk hmantissa .none (fun _ => rfl) he⟩
      rw [hcs, List.nil_append, List.append_assoc]
      exact congrArg (m ++ ·) hmore
    | some f =>
      obtain ⟨g, r, hg, hmore⟩ := group_off more
      obtain ⟨e, x, he, hafter⟩ := scale_off (((group? more).map (·.2)).getD more)
      cases h
      refine ⟨m ++ (g ++ e), _, ?_, .mk hmantissa hg (fun h => (nomatch h)) he⟩
      rw [hcs, List.append_assoc, List.append_assoc]
      exact congrArg (m ++ ·) (hmore.trans (congrArg (g ++ ·) hafter))

theorem afterName?_eq {cs rest : List Char} (h : afterName? cs = some rest) :
    ∃ c ds, cs = c :: ds ++ rest ∧ isNameStart c = true ∧ ∀ d ∈ ds, isNameRest d = true := by
  cases cs with
  | nil => cases h
  | cons c cs =>
    rw [afterName?] at h
    split at h
    · rename_i hstart
      cases h
      refine ⟨c, cs.takeWhile isNameRest, ?_, hstart, fun d hd => List.mem_takeWhile_imp hd⟩
      rw [List.cons_append, List.takeWhile_append_dropWhile]
    · cases h

theorem symbol?_eq {cs : List Char} {l : Lexeme} (h : symbol? cs = some l) :
    ∃ w rest, cs = w ++ rest ∧ l.width = w.length ∧ (w, l.kind, l.text) ∈ spellings := by
  unfold symbol? at h
  split at h <;> cases h
  · exact ⟨['*', '*'], _, rfl, rfl, by simp [spellings]⟩
  all_goals exact ⟨[_], _, rfl, rfl, by simp [spellings]⟩

theorem upTo_append (kind : TokenKind) (w rest : List Char) :
    Lexeme.upTo kind (w ++ rest) rest = ⟨kind, String.ofList w, w.length⟩ := by
  simp [Lexeme.upTo]

/-- **The lexer takes a word off the front of a text.** -/
theorem lexeme?_eq {cs : List Char} {l : Lexeme} (h : lexeme? cs = some l) :
    ∃ w rest, cs = w ++ rest ∧ l.width = w.length ∧ Word w l.kind l.text := by
  unfold lexeme? at h
  split at h
  · rename_i rest hnumber
    obtain ⟨w, lit, rfl, hw⟩ := afterNumber?_eq hnumber
    rw [upTo_append] at h
    cases h
    exact ⟨w, rest, rfl, rfl, .number hw⟩
  · split at h
    · rename_i rest hname
      obtain ⟨c, ds, rfl, hc, hds⟩ := afterName?_eq hname
      rw [upTo_append] at h
      cases h
      exact ⟨c :: ds, rest, rfl, rfl, .name hc hds⟩
    · obtain ⟨w, rest, hcs, hwidth, hmem⟩ := symbol?_eq h
      exact ⟨w, rest, hcs, hwidth, .symbol hmem⟩

/-! ## Whole texts -/

theorem scan_blank {p : ℕ} {c : Char} {cs : List Char} (h : isBlank c = true) :
    scan p (c :: cs) = scan (p + 1) cs := by
  rw [scan, if_pos h]

theorem scan_stop {p : ℕ} {c : Char} {cs : List Char} (h : isBlank c = false)
    (hnone : lexeme? (c :: cs) = none) : scan p (c :: cs) = ([], some ⟨p, c⟩) := by
  rw [scan, if_neg (by simp [h]), hnone]

theorem scan_lexeme {p : ℕ} {c : Char} {w cs : List Char} {kind : TokenKind} {text : String}
    (h : isBlank c = false)
    (hsome : lexeme? (c :: w ++ cs) = some ⟨kind, text, w.length + 1⟩) :
    scan p (c :: w ++ cs) =
      (⟨kind, text, p⟩ :: (scan (p + (w.length + 1)) cs).1, (scan (p + (w.length + 1)) cs).2) := by
  rw [List.cons_append] at hsome ⊢
  rw [scan, if_neg (by simp [h]), hsome]
  simp only [Nat.add_sub_cancel, List.drop_left]

/-- How a text goes on: it is at its end, a blank follows, the lexer takes a word, or it stops. -/
inductive Shape : List Char → Prop
  | finish : Shape []
  | blank {c : Char} {cs : List Char} : isBlank c = true → Shape (c :: cs)
  | word {c : Char} {w cs : List Char} {kind : TokenKind} {text : String} : isBlank c = false →
      lexeme? (c :: w ++ cs) = some ⟨kind, text, w.length + 1⟩ → Word (c :: w) kind text →
      Shape (c :: w ++ cs)
  | stop {c : Char} {cs : List Char} : isBlank c = false → lexeme? (c :: cs) = none →
      Shape (c :: cs)

theorem shape (cs : List Char) : Shape cs := by
  cases cs with
  | nil => exact .finish
  | cons c cs =>
    cases hblank : isBlank c with
    | true => exact .blank hblank
    | false =>
      cases hlexeme : lexeme? (c :: cs) with
      | none => exact .stop hblank hlexeme
      | some l =>
        obtain ⟨w, rest, hcs, hwidth, hw⟩ := lexeme?_eq hlexeme
        obtain ⟨kind, text, width⟩ := l
        cases w with
        | nil => exact absurd rfl hw.ne_nil
        | cons d w =>
          cases hcs
          dsimp only [List.length_cons] at hwidth
          subst hwidth
          exact .word hblank hlexeme hw

/-- **A text that the lexer does not stop at is cut into words.** -/
theorem scan_cut {p : ℕ} {cs : List Char} {ts : List Token} (h : scan p cs = (ts, none)) :
    Cut p cs ts := by
  induction hn : cs.length using Nat.strong_induction_on generalizing p cs ts with
  | _ n ih =>
    subst hn
    cases shape cs with
    | finish =>
      rw [scan] at h
      cases h
      exact .finish
    | blank hblank =>
      rw [scan_blank hblank] at h
      exact .blank hblank (ih _ (by simp) h rfl)
    | stop hblank hnone =>
      rw [scan_stop hblank hnone] at h
      cases h
    | @word c w cs kind text hblank hsome hw =>
      rw [scan_lexeme hblank hsome] at h
      obtain ⟨rfl, hstop⟩ := Prod.mk.inj h
      exact .word hw (ih _ (by simp) (Prod.ext rfl hstop) rfl)

/-- **The character that stops the lexer stands at the position reported for it.** -/
theorem scan_stop_at {p : ℕ} {cs : List Char} {e : LexError} (h : (scan p cs).2 = some e) :
    ∃ u v, cs = u ++ e.character :: v ∧ e.position = p + u.length := by
  induction hn : cs.length using Nat.strong_induction_on generalizing p cs with
  | _ n ih =>
    subst hn
    cases shape cs with
    | finish =>
      rw [scan] at h
      cases h
    | @blank c cs hblank =>
      rw [scan_blank hblank] at h
      obtain ⟨u, v, hcs, hposition⟩ := ih _ (by simp) h rfl
      refine ⟨c :: u, v, by rw [hcs, List.cons_append], ?_⟩
      rw [hposition, List.length_cons]
      push_cast
      ring
    | @stop c cs hblank hnone =>
      rw [scan_stop hblank hnone] at h
      cases h
      exact ⟨[], cs, rfl, by simp⟩
    | @word c w cs kind text hblank hsome hw =>
      rw [scan_lexeme hblank hsome] at h
      obtain ⟨u, v, hcs, hposition⟩ := ih _ (by simp) h rfl
      refine ⟨c :: w ++ u, v, by rw [hcs, List.append_assoc], ?_⟩
      rw [hposition, List.length_append, List.length_cons]
      push_cast
      ring

theorem tokenize_eq_ok {line : String} {ts : List Token} (h : tokenize line = .ok ts) :
    Cut 0 line.toList ts := by
  unfold tokenize at h
  split at h
  · rename_i hscan
    cases h
    exact scan_cut hscan
  · cases h

theorem tokenize_eq_error {line : String} {e : LexError} (h : tokenize line = .error e) :
    ∃ u v, line.toList = u ++ e.character :: v ∧ e.position = u.length := by
  unfold tokenize at h
  split at h
  · cases h
  · rename_i hscan
    cases h
    obtain ⟨u, v, hline, hposition⟩ := scan_stop_at (congrArg Prod.snd hscan)
    refine ⟨u, v, hline, ?_⟩
    rw [hposition, Nat.cast_zero, zero_add]

/-! ## The tokens of a cut -/

variable {p : ℕ} {cs : List Char} {ts : List Token}

theorem Cut.getLast? (h : Cut p cs ts) : ts.getLast? = some (.finish (p + cs.length)) := by
  induction h with
  | finish => simp
  | @blank p c cs ts _ _ ih =>
    rw [ih]
    simp only [List.length_cons]
    congr 2
    push_cast
    ring
  | @word p w cs kind text ts _ hcut ih =>
    have hne : ts ≠ [] := by
      rintro rfl
      cases ih
    rw [List.getLast?_cons_of_ne_nil hne, ih]
    simp only [List.length_append]
    congr 2
    push_cast
    ring

/-- **A token of a cut is the end of the input, or one of the words**, which stands at its
position. -/
theorem Cut.mem_split (h : Cut p cs ts) {t : Token} (ht : t ∈ ts) :
    t = .finish (p + cs.length) ∨
      ∃ u w v, cs = u ++ (w ++ v) ∧ t.position = p + u.length ∧ Word w t.kind t.text := by
  induction h with
  | finish =>
    rw [List.mem_singleton.1 ht]
    exact Or.inl (by simp)
  | @blank p c cs ts _ _ ih =>
    rcases ih ht with hend | ⟨u, w, v, hcs, hposition, hw⟩
    · refine Or.inl (hend.trans (congrArg Token.finish ?_))
      rw [List.length_cons]
      push_cast
      ring
    · refine Or.inr ⟨c :: u, w, v, by rw [hcs, List.cons_append], ?_, hw⟩
      rw [hposition, List.length_cons]
      push_cast
      ring
  | @word p w' cs kind text ts hw' _ ih =>
    rcases List.mem_cons.1 ht with rfl | ht
    · exact Or.inr ⟨[], w', cs, rfl, by simp, hw'⟩
    · rcases ih ht with hend | ⟨u, w, v, hcs, hposition, hw⟩
      · refine Or.inl (hend.trans (congrArg Token.finish ?_))
        rw [List.length_append]
        push_cast
        ring
      · refine Or.inr ⟨w' ++ u, w, v, by rw [hcs, List.append_assoc], ?_, hw⟩
        rw [hposition, List.length_append]
        push_cast
        ring

theorem Cut.word_of_mem (h : Cut p cs ts) {t : Token} (ht : t ∈ ts) :
    t.kind = .endOfInput ∨ ∃ w, Word w t.kind t.text ∧ w.length ≤ cs.length := by
  rcases h.mem_split ht with rfl | ⟨u, w, v, rfl, -, hw⟩
  · exact Or.inl rfl
  · refine Or.inr ⟨w, hw, ?_⟩
    simp only [List.length_append]
    omega

theorem Cut.position_of_mem (h : Cut p cs ts) {t : Token} (ht : t ∈ ts) :
    (p : ℤ) ≤ t.position ∧ t.position ≤ p + cs.length := by
  rcases h.mem_split ht with rfl | ⟨u, w, v, rfl, hposition, -⟩
  · rw [Token.finish]
    dsimp only
    omega
  · simp only [hposition, List.length_append]
    omega

theorem Cut.length_le (h : Cut p cs ts) : ts.length ≤ cs.length + 1 := by
  induction h with
  | finish => simp
  | blank _ _ ih =>
    simp only [List.length_cons]
    omega
  | @word p w cs kind text ts hw _ ih =>
    have := List.length_pos_iff.2 hw.ne_nil
    simp only [List.length_cons, List.length_append]
    omega

/-- The text of an operator token is one of the five symbols. -/
theorem Word.operator {w : List Char} {text : String} (h : Word w .operator text) :
    text ∈ ["+", "-", "*", "/", "^"] := by
  cases h with
  | symbol hmem =>
    simp only [spellings, List.mem_cons, Prod.mk.injEq, true_and, reduceCtorEq, false_and,
      and_false, List.not_mem_nil, or_false] at hmem
    rcases hmem with ⟨-, rfl⟩ | ⟨-, rfl⟩ | ⟨-, rfl⟩ | ⟨-, rfl⟩ | ⟨-, rfl⟩ | ⟨-, rfl⟩ <;> simp

theorem Word.division {w : List Char} (h : Word w .operator "/") : w = ['/'] := by
  cases h with
  | symbol hmem => simpa [spellings] using hmem

/-- A power has two spellings. -/
theorem Word.power {w : List Char} (h : Word w .operator "^") : w = ['^'] ∨ w = ['*', '*'] := by
  cases h with
  | symbol hmem => simpa [spellings, or_comm] using hmem

theorem Word.numberText {w : List Char} {text : String} (h : Word w .number text) :
    text.toList = w ∧ ∃ l, NumberText w l := by
  cases h with
  | number hn => exact ⟨String.toList_ofList, _, hn⟩
  | symbol hmem => simp [spellings] at hmem

/-- A number token is a number, and no longer than the line. -/
theorem Cut.number_of_mem (h : Cut p cs ts) {t : Token} (ht : t ∈ ts) (hkind : t.kind = .number) :
    ∃ l, NumberText t.text.toList l ∧ t.text.toList.length ≤ cs.length := by
  rcases h.word_of_mem ht with hend | ⟨w, hw, hlength⟩
  · rw [hkind] at hend
    cases hend
  · rw [hkind] at hw
    obtain ⟨rfl, l, hl⟩ := hw.numberText
    exact ⟨l, hl, hlength⟩

end Roundoff.Lexer
