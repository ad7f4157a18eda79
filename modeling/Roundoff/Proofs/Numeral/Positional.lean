import Roundoff.Numeral.Read
import Roundoff.Proofs.Text.Trim

/-! # Digit strings

A non-empty string of ASCII digits is read as its positional value, whatever its length.  A string
of up to a thousand digits is read at once; a longer one is cut in two, and each half is again a
digit string, so no half can carry a sign or blanks of its own (`read_digits`).  What is read at
once may have underscores between its digits (`Separated`).
-/
namespace Roundoff.Numeral

open Text (isAsciiDigit isBlank isSpace trimAll_eq_self)

/-- The number that a digit string spells in base ten, most significant digit first. -/
def positional (ds : List Char) : ℕ :=
  Nat.ofDigits 10 (ds.reverse.map fun c => c.toNat - '0'.toNat)

/-- A string of one or more ASCII digits. -/
structure Digits (ds : List Char) : Prop where
  ne_nil : ds ≠ []
  all : ∀ c ∈ ds, isAsciiDigit c = true

theorem positional_append (a b : List Char) :
    positional (a ++ b) = positional a * 10 ^ b.length + positional b := by
  rw [positional, positional, positional, List.reverse_append, List.map_append,
    Nat.ofDigits_append, List.length_map, List.length_reverse]
  ring

/-! ## ASCII digits are neither signs nor blanks -/

theorem isAsciiDigit_iff {c : Char} :
    isAsciiDigit c = true ↔ 48 ≤ c.toNat ∧ c.toNat ≤ 57 := by
  have h0 : ('0' ≤ c) ↔ 48 ≤ c.toNat := Iff.rfl
  have h9 : (c ≤ '9') ↔ c.toNat ≤ 57 := Iff.rfl
  rw [isAsciiDigit, Bool.and_eq_true, decide_eq_true_eq, decide_eq_true_eq, h0, h9]

theorem isBlank_of_isAsciiDigit {c : Char} (h : isAsciiDigit c = true) : isBlank c = false := by
  obtain ⟨hlow, hhigh⟩ := isAsciiDigit_iff.1 h
  show Text.inRanges Text.blankRanges c.toNat = false
  generalize c.toNat = n at hlow hhigh
  interval_cases n <;> rfl

theorem digitValue?_of_isAsciiDigit {c : Char} (h : isAsciiDigit c = true) :
    Text.digitValue? c = some (c.toNat - '0'.toNat) := by
  obtain ⟨hlow, hhigh⟩ := isAsciiDigit_iff.1 h
  -- The ASCII zero stands first in the table.
  have hfind : Text.scriptZeros.find?
      (fun z => decide (z ≤ c.toNat) && decide (c.toNat < z + 10)) = some '0'.toNat := by
    refine List.find?_cons_of_pos ?_
    simp only [Bool.and_eq_true, decide_eq_true_eq]
    omega
  rw [Text.digitValue?, hfind]
  rfl

theorem ne_of_isAsciiDigit {c d : Char} (h : isAsciiDigit c = true)
    (hd : isAsciiDigit d = false) : c ≠ d := by
  rintro rfl
  rw [h] at hd
  cases hd

section
variable {ds : List Char} (h : Digits ds)
include h

theorem Digits.trim_eq : Text.trim ds = ds :=
  trimAll_eq_self fun c hc => isBlank_of_isAsciiDigit (h.all c hc)

theorem Digits.trimSpaces_eq : Text.trimSpaces ds = ds :=
  trimAll_eq_self fun c hc => by simp [isSpace, isBlank_of_isAsciiDigit (h.all c hc)]

/-- No sign can be taken off a digit string. -/
theorem Digits.head_ne {d : Char} (hd : isAsciiDigit d = false) : ds.head? ≠ some d := by
  intro heq
  exact ne_of_isAsciiDigit (h.all d (List.mem_of_mem_head? heq)) hd rfl

end

/-! ## Reading -/

theorem ofDigitValues_append (a b : List ℕ) :
    ofDigitValues (a ++ b) = b.foldl (fun n d => 10 * n + d) (ofDigitValues a) :=
  List.foldl_append ..

theorem ofDigitValues_map (ds : List Char) :
    ofDigitValues (ds.map fun c => c.toNat - '0'.toNat) = positional ds := by
  induction ds using List.reverseRecOn with
  | nil => rfl
  | append_singleton ds c ih =>
    rw [List.map_append, ofDigitValues_append, ih, positional_append]
    simp [positional, Nat.ofDigits_singleton]
    ring

/-! ### Underscores -/

/-- Digits between which single underscores may stand: the text and its digits. -/
inductive Separated : List Char → List Char → Prop
  | one {c : Char} : isAsciiDigit c = true → Separated [c] [c]
  | next {c : Char} {cs ds : List Char} : isAsciiDigit c = true → Separated cs ds →
      Separated (c :: cs) (c :: ds)
  | underscore {c : Char} {cs ds : List Char} : isAsciiDigit c = true → Separated cs ds →
      Separated (c :: '_' :: cs) (c :: ds)

theorem Separated.head {cs ds : List Char} (h : Separated cs ds) :
    ∃ c rest, cs = c :: rest ∧ isAsciiDigit c = true := by
  cases h with
  | one hc => exact ⟨_, _, rfl, hc⟩
  | next hc _ => exact ⟨_, _, rfl, hc⟩
  | underscore hc _ => exact ⟨_, _, rfl, hc⟩

theorem separated_digits {ds : List Char} (h : Digits ds) : Separated ds ds := by
  obtain ⟨hne, hall⟩ := h
  induction ds with
  | nil => exact absurd rfl hne
  | cons c ds ih =>
    obtain ⟨hc, hds⟩ := List.forall_mem_cons.1 hall
    by_cases hnil : ds = []
    · rw [hnil]
      exact .one hc
    · exact .next hc (ih hnil hds)

theorem Separated.length_le {cs ds : List Char} (h : Separated cs ds) : ds.length ≤ cs.length := by
  induction h with
  | one _ => exact le_rfl
  | next _ _ ih | underscore _ _ ih =>
    simp only [List.length_cons]
    omega

theorem Separated.digitGroups?_eq {cs ds : List Char} (h : Separated cs ds) :
    digitGroups? cs = some (ds.map fun c => c.toNat - '0'.toNat) := by
  induction h with
  | one hc => simp [digitGroups?, digitValue?_of_isAsciiDigit hc]
  | @next c cs ds hc h ih =>
    obtain ⟨d, rest, rfl, hd⟩ := h.head
    have hnot : ∀ more, d :: rest ≠ '_' :: more := by
      rintro more ⟨⟩
      exact absurd hd (by decide)
    rw [digitGroups?.eq_4 c (d :: rest) (List.cons_ne_nil _ _) hnot,
      digitValue?_of_isAsciiDigit hc, ih]
    rfl
  | @underscore c cs ds hc h ih =>
    rw [digitGroups?, digitValue?_of_isAsciiDigit hc, ih]
    rfl

theorem Separated.digitString?_eq {cs ds : List Char} (h : Separated cs ds)
    (hlength : cs.length ≤ pieceDigits) : digitString? cs = some (positional ds) := by
  have hquotable : (ds.map fun c => c.toNat - '0'.toNat).length ≤ quotableDigits := by
    rw [List.length_map]
    exact (h.length_le.trans hlength).trans (by decide)
  rw [digitString?, h.digitGroups?_eq]
  simp only [Option.bind_eq_bind, Option.bind_some]
  rw [if_pos hquotable, ofDigitValues_map]
  rfl

/-! ### Digit strings -/

theorem readPiece?_digits {ds : List Char} (h : Digits ds) (hlen : ds.length ≤ pieceDigits) :
    readPiece? ds = some (positional ds : ℤ) := by
  have hplus := h.head_ne (d := '+') (by decide)
  have hminus := h.head_ne (d := '-') (by decide)
  rw [readPiece?, h.trimSpaces_eq]
  split
  · exact absurd rfl hplus
  · exact absurd rfl hminus
  · rw [(separated_digits h).digitString?_eq hlen]
    rfl

/-- **A digit string of any length is read as its positional value.** -/
theorem read_digits {ds : List Char} (h : Digits ds) : read ds = .ok (positional ds : ℤ) := by
  induction hn : ds.length using Nat.strong_induction_on generalizing ds with
  | _ n ih =>
    subst hn
    rw [read]
    simp only [h.trim_eq]
    split
    · rename_i hshort
      rw [readPiece?_digits h hshort]
    · rename_i hlong
      have hpiece : pieceDigits = 1000 := rfl
      have hdigits : ds.all Text.isDigitLike = true := by
        rw [List.all_eq_true]
        intro c hc
        simp [Text.isDigitLike, digitValue?_of_isAsciiDigit (h.all c hc)]
      rw [if_neg (h.head_ne (by decide)), if_neg (h.head_ne (by decide)), if_pos hdigits]
      -- Both halves are digit strings again, and shorter.
      have hhigh : Digits (ds.take (ds.length - ds.length / 2)) :=
        ⟨by rw [← List.length_pos_iff, List.length_take]; omega,
          fun c hc => h.all c (List.mem_of_mem_take hc)⟩
      have hlow : Digits (ds.drop (ds.length - ds.length / 2)) :=
        ⟨by rw [← List.length_pos_iff, List.length_drop]; omega,
          fun c hc => h.all c (List.mem_of_mem_drop hc)⟩
      rw [ih _ (by rw [List.length_take]; omega) hhigh rfl,
        ih _ (by rw [List.length_drop]; omega) hlow rfl]
      have hwidth : (ds.drop (ds.length - ds.length / 2)).length = ds.length / 2 := by
        rw [List.length_drop]
        omega
      have hsplit := positional_append (ds.take (ds.length - ds.length / 2))
        (ds.drop (ds.length - ds.length / 2))
      rw [List.take_append_drop, hwidth] at hsplit
      rw [hsplit]
      push_cast
      rfl

/-- A sign before a digit string is read as a sign, however long the string is. -/
theorem read_cons_sign {c : Char} {ds : List Char} (h : Digits ds) (hc : c = '+' ∨ c = '-') :
    read (c :: ds) = .ok (if c = '-' then -(positional ds : ℤ) else positional ds) := by
  have hall : ∀ d ∈ c :: ds, isBlank d = false := by
    intro d hd
    rcases List.mem_cons.1 hd with rfl | hd
    · rcases hc with rfl | rfl <;> decide
    · exact isBlank_of_isAsciiDigit (h.all d hd)
  have htrim : Text.trim (c :: ds) = c :: ds := trimAll_eq_self hall
  have hspaces : Text.trimSpaces (c :: ds) = c :: ds :=
    trimAll_eq_self fun d hd => by simp [isSpace, hall d hd]
  rw [read]
  simp only [htrim]
  split
  · rename_i hshort
    have hlen : ds.length ≤ pieceDigits := Nat.le_of_succ_le hshort
    have hpiece : readPiece? (c :: ds) =
        some (if c = '-' then -(positional ds : ℤ) else positional ds) := by
      rw [readPiece?, hspaces]
      rcases hc with rfl | rfl <;> simp [(separated_digits h).digitString?_eq hlen]
    rw [hpiece]
  · rcases hc with rfl | rfl <;> simp [read_digits h, Except.map]

/-! ## Zeros -/

theorem isAsciiDigit_zeros (n : ℕ) :
    ∀ c ∈ List.replicate n '0', isAsciiDigit c = true := by
  intro c hc
  rw [List.eq_of_mem_replicate hc]
  decide

theorem digits_zero : Digits ['0'] :=
  ⟨List.cons_ne_nil _ _, isAsciiDigit_zeros 1⟩

theorem positional_zeros {ds : List Char} (h : ∀ c ∈ ds, c = '0') : positional ds = 0 := by
  induction ds with
  | nil => rfl
  | cons c ds ih =>
    have hsplit := positional_append [c] ds
    rw [h c (List.mem_cons_self ..), ih fun d hd => h d (List.mem_cons_of_mem _ hd)] at hsplit
    rw [h c (List.mem_cons_self ..)]
    exact hsplit.trans (Nat.zero_mul _)

/-- Only zeros spell zero. -/
theorem eq_zero_of_positional {ds : List Char} (hds : ∀ c ∈ ds, isAsciiDigit c = true)
    (h : positional ds = 0) : ∀ c ∈ ds, c = '0' := by
  induction ds with
  | nil => exact nofun
  | cons c ds ih =>
    have hsplit := positional_append [c] ds
    rw [List.singleton_append, h, eq_comm, Nat.add_eq_zero_iff, Nat.mul_eq_zero] at hsplit
    obtain ⟨hfirst, hrest⟩ := hsplit
    refine List.forall_mem_cons.2 ⟨?_, ih (fun d hd => hds d (List.mem_cons_of_mem _ hd)) hrest⟩
    have hvalue : c.toNat - '0'.toNat = 0 :=
      Nat.ofDigits_singleton.symm.trans (hfirst.resolve_right (by positivity))
    have hlow := (isAsciiDigit_iff.1 (hds c (List.mem_cons_self ..))).1
    exact Char.toNat_inj.1 (Nat.le_antisymm (Nat.le_of_sub_eq_zero hvalue) hlow)

theorem positional_replicate_append (n : ℕ) (ds : List Char) :
    positional (List.replicate n '0' ++ ds) = positional ds := by
  rw [positional_append, positional_zeros fun c hc => List.eq_of_mem_replicate hc, Nat.zero_mul,
    Nat.zero_add]

theorem positional_append_replicate (ds : List Char) (n : ℕ) :
    positional (ds ++ List.replicate n '0') = positional ds * 10 ^ n := by
  rw [positional_append, positional_zeros fun c hc => List.eq_of_mem_replicate hc,
    List.length_replicate, Nat.add_zero]

/-- A one and zeros. -/
theorem digits_one_zeros (n : ℕ) : Digits ('1' :: List.replicate n '0') :=
  ⟨List.cons_ne_nil _ _, List.forall_mem_cons.2 ⟨by decide, isAsciiDigit_zeros n⟩⟩

theorem positional_one_zeros (n : ℕ) : positional ('1' :: List.replicate n '0') = 10 ^ n :=
  (positional_append_replicate ['1'] n).trans (Nat.one_mul _)

theorem digits_padZeros {ds : List Char} (h : Digits ds) (width : ℕ) :
    Digits (padZeros width ds) :=
  ⟨fun hnil => h.ne_nil (List.append_eq_nil_iff.1 hnil).2,
    List.forall_mem_append.2 ⟨isAsciiDigit_zeros _, h.all⟩⟩

example : positional ['0', '4', '2'] = 42 := by decide

end Roundoff.Numeral
