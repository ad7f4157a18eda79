import Roundoff.Proofs.Literal.Spelling
import Roundoff.Proofs.Numeral.Pieces

/-! # The texts that are read as integers

A proper integer text is an optional sign and digits; as long as it can be read in one piece, single
underscores may stand between the digits.  Every proper text is read, at every length, and among
texts of ASCII characters nothing else is, with one exception: reading a long text in pieces starts
over behind its sign.  A long text is therefore read also with further signs, and with blanks behind
its signs, as long as more than `pieceDigits` characters are left from each of these signs on
(`read_ascii_iff`).
-/
namespace Roundoff.Numeral

open Text (isAsciiDigit isBlank isSpace trim)
open Literal (SignText signed)

/-! ## Proper and accepted texts -/

/-- **A proper integer text and its integer.**  Underscores are for short texts only. -/
inductive Proper : List Char → ℤ → Prop
  | digits {sgn ds : List Char} {negative : Bool} : SignText sgn negative → Digits ds →
      Proper (sgn ++ ds) (signed negative (positional ds))
  | separated {sgn cs ds : List Char} {negative : Bool} : SignText sgn negative →
      Separated cs ds → cs.length ≤ pieceDigits →
      Proper (sgn ++ cs) (signed negative (positional ds))

/-- A plus or a minus sign. -/
def IsSign (c : Char) : Prop := c = '+' ∨ c = '-'

/-- **What is accepted**: a proper text, also behind a sign and blanks if the whole is long. -/
inductive Accepted : List Char → ℤ → Prop
  | proper {t : List Char} {i : ℤ} : Proper t i → Accepted t i
  | again {c : Char} {b t : List Char} {i : ℤ} : IsSign c → (∀ d ∈ b, isBlank d = true) →
      pieceDigits < (c :: (b ++ t)).length → Accepted t i →
      Accepted (c :: (b ++ t)) (signed (c == '-') i)

/-- A long text in which a sign follows on the first sign, or a blank does. -/
def Stacked (t : List Char) : Prop :=
  pieceDigits < t.length ∧
    ∃ c d rest, t = c :: d :: rest ∧ IsSign c ∧ (IsSign d ∨ isBlank d = true)

/-! ## ASCII characters -/

theorem scriptZeros_ascii {z : ℕ} (h : z ∈ Text.scriptZeros) : z = '0'.toNat ∨ 128 ≤ z := by
  have hall : ∀ z ∈ Text.scriptZeros, z = '0'.toNat ∨ 128 ≤ z := by decide
  exact hall z h

/-- Among ASCII characters, only the ten digits have a value. -/
theorem digitValue?_ascii {c : Char} {d : ℕ} (hc : c.toNat < 128)
    (h : Text.digitValue? c = some d) : isAsciiDigit c = true ∧ d = c.toNat - '0'.toNat := by
  obtain ⟨z, hz, rfl⟩ := Option.map_eq_some_iff.1 h
  have hrange := List.find?_some hz
  simp only [Bool.and_eq_true, decide_eq_true_eq] at hrange
  have hzero : '0'.toNat = 48 := rfl
  rcases scriptZeros_ascii (List.mem_of_find?_eq_some hz) with hfirst | hlarge
  · exact ⟨isAsciiDigit_iff.2 (by omega), by rw [hfirst]⟩
  · omega

theorem isAsciiDigit_of_isDigitLike {c : Char} (hc : c.toNat < 128)
    (h : Text.isDigitLike c = true) : isAsciiDigit c = true := by
  have hranges : ∀ r ∈ Text.digitLikeRanges, 128 ≤ r.1 := by decide
  rw [Text.isDigitLike, Bool.or_eq_true] at h
  rcases h with h | h
  · obtain ⟨d, hd⟩ := Option.isSome_iff_exists.1 h
    exact (digitValue?_ascii hc hd).1
  · obtain ⟨r, hr, hin⟩ := List.any_eq_true.1 h
    have hlarge := hranges r hr
    simp only [Bool.and_eq_true, decide_eq_true_eq] at hin
    omega

/-! ## Digits and underscores -/

theorem Separated.not_blank {cs ds : List Char} (h : Separated cs ds) :
    ∀ c ∈ cs, isBlank c = false := by
  induction h with
  | one hc =>
    intro c hmem
    rw [List.mem_singleton.1 hmem]
    exact isBlank_of_isAsciiDigit hc
  | next hc _ ih => exact List.forall_mem_cons.2 ⟨isBlank_of_isAsciiDigit hc, ih⟩
  | underscore hc _ ih =>
    exact List.forall_mem_cons.2
      ⟨isBlank_of_isAsciiDigit hc, List.forall_mem_cons.2 ⟨by decide, ih⟩⟩

theorem separated_of_digitGroups? {cs : List Char} {vs : List ℕ} (hascii : ∀ c ∈ cs, c.toNat < 128)
    (h : digitGroups? cs = some vs) :
    ∃ ds, Separated cs ds ∧ vs = ds.map fun c => c.toNat - '0'.toNat := by
  fun_induction digitGroups? cs generalizing vs with
  | case1 => cases h
  | case2 c =>
    obtain ⟨d, hd, rfl⟩ := Option.map_eq_some_iff.1 h
    obtain ⟨hc, rfl⟩ := digitValue?_ascii (hascii c (by simp)) hd
    exact ⟨[c], .one hc, rfl⟩
  | case3 c rest ih =>
    obtain ⟨d, hd, h⟩ := Option.bind_eq_some_iff.1 h
    obtain ⟨us, hus, ⟨⟩⟩ := Option.bind_eq_some_iff.1 h
    obtain ⟨hc, rfl⟩ := digitValue?_ascii (hascii c (by simp)) hd
    obtain ⟨ds, hds, rfl⟩ := ih (fun x hx => hascii x (by simp [hx])) hus
    exact ⟨c :: ds, .underscore hc hds, rfl⟩
  | case4 c rest hne hunder ih =>
    obtain ⟨d, hd, h⟩ := Option.bind_eq_some_iff.1 h
    obtain ⟨us, hus, ⟨⟩⟩ := Option.bind_eq_some_iff.1 h
    obtain ⟨hc, rfl⟩ := digitValue?_ascii (hascii c (by simp)) hd
    obtain ⟨ds, hds, rfl⟩ := ih (fun x hx => hascii x (by simp [hx])) hus
    exact ⟨c :: ds, .next hc hds, rfl⟩

theorem digitString?_eq_some {cs : List Char} {n : ℕ} (hascii : ∀ c ∈ cs, c.toNat < 128)
    (h : digitString? cs = some n) : ∃ ds, Separated cs ds ∧ n = positional ds := by
  obtain ⟨vs, hvs, h⟩ := Option.bind_eq_some_iff.1 h
  obtain ⟨ds, hds, rfl⟩ := separated_of_digitGroups? hascii hvs
  split at h
  · cases h
    exact ⟨ds, hds, ofDigitValues_map ds⟩
  · cases h

/-! ## Reading at once -/

theorem IsSign.not_blank {c : Char} (h : IsSign c) : isBlank c = false := by
  rcases h with rfl | rfl <;> decide

theorem trimSpaces_of_trim {t : List Char} (ht : trim t = t) : Text.trimSpaces t = t := by
  have hspace : ∀ c, isBlank c = false → isSpace c = false := fun c hc => by rw [isSpace, hc]; rfl
  obtain ⟨hhead, hlast⟩ := Text.ends_of_trim_eq ht
  exact Text.trimAll_of_ends (fun c hc => hspace c (hhead c hc)) fun c hc => hspace c (hlast c hc)

theorem Proper.of_readPiece? {t : List Char} {i : ℤ} (ht : trim t = t)
    (hascii : ∀ c ∈ t, c.toNat < 128) (hshort : t.length ≤ pieceDigits)
    (h : readPiece? t = some i) : Proper t i := by
  rw [readPiece?, trimSpaces_of_trim ht] at h
  split at h
  · obtain ⟨n, hn, rfl⟩ := Option.map_eq_some_iff.1 h
    obtain ⟨ds, hds, rfl⟩ := digitString?_eq_some (fun c hc => hascii c (by simp [hc])) hn
    exact .separated .plus hds (Nat.le_of_succ_le hshort)
  · obtain ⟨n, hn, rfl⟩ := Option.map_eq_some_iff.1 h
    obtain ⟨ds, hds, rfl⟩ := digitString?_eq_some (fun c hc => hascii c (by simp [hc])) hn
    exact .separated .minus hds (Nat.le_of_succ_le hshort)
  · obtain ⟨n, hn, rfl⟩ := Option.map_eq_some_iff.1 h
    obtain ⟨ds, hds, rfl⟩ := digitString?_eq_some hascii hn
    exact .separated .none hds hshort

/-! ## Reading in pieces -/

theorem read_trim (cs : List Char) : read (trim cs) = read cs := by
  conv_lhs => rw [read]
  conv_rhs => rw [read]
  simp only [Text.trim_trim]

theorem read_short {t : List Char} (ht : trim t = t) (hshort : t.length ≤ pieceDigits) :
    read t = readAtOnce t := by
  rw [read]
  simp only [ht]
  rw [dif_pos hshort]
  rfl

/-- Behind the sign of a long text, reading starts over. -/
theorem read_behind_sign {c : Char} {rest : List Char} (hc : IsSign c)
    (ht : trim (c :: rest) = c :: rest) (hlong : pieceDigits < (c :: rest).length) :
    read (c :: rest) = (read rest).map (signed (c == '-')) := by
  rw [read]
  simp only [ht]
  rw [dif_neg (not_le.2 hlong)]
  rcases hc with rfl | rfl
  · show read rest = _
    cases read rest <;> rfl
  · rfl

theorem Separated.trim_eq {cs ds sgn : List Char} {negative : Bool} (h : Separated cs ds)
    (hsgn : SignText sgn negative) : trim (sgn ++ cs) = sgn ++ cs :=
  Text.trimAll_eq_self (List.forall_mem_append.2 ⟨hsgn.not_blank, h.not_blank⟩)

theorem Separated.readPiece?_eq {cs ds sgn : List Char} {negative : Bool} (h : Separated cs ds)
    (hsgn : SignText sgn negative) (hshort : cs.length ≤ pieceDigits) :
    readPiece? (sgn ++ cs) = some (signed negative (positional ds)) := by
  rw [readPiece?, trimSpaces_of_trim (h.trim_eq hsgn)]
  cases hsgn with
  | plus =>
    simp only [List.cons_append, List.nil_append, h.digitString?_eq hshort]
    rfl
  | minus =>
    simp only [List.cons_append, List.nil_append, h.digitString?_eq hshort]
    rfl
  | none =>
    obtain ⟨c, rest, rfl, hc⟩ := h.head
    rw [List.nil_append]
    split
    · rename_i heq
      cases heq
      exact absurd hc (by decide)
    · rename_i heq
      cases heq
      exact absurd hc (by decide)
    · rw [h.digitString?_eq hshort]
      rfl

theorem Separated.read_eq {cs ds : List Char} (h : Separated cs ds)
    (hshort : cs.length ≤ pieceDigits) : read cs = .ok (positional ds : ℤ) := by
  have ht : trim cs = cs := h.trim_eq .none
  have hpiece : readPiece? cs = some (positional ds : ℤ) := h.readPiece?_eq .none hshort
  rw [read_short ht hshort, readAtOnce, hpiece]

/-- A proper text is read, whether it is short or long. -/
theorem Proper.read_eq {t : List Char} {i : ℤ} (h : Proper t i) : read t = .ok i := by
  cases h with
  | digits hsgn hds => exact Literal.read_signed hsgn hds
  | @separated sgn cs ds negative hsgn hcs hlength =>
    by_cases hshort : (sgn ++ cs).length ≤ pieceDigits
    · rw [read_short (hcs.trim_eq hsgn) hshort, readAtOnce, hcs.readPiece?_eq hsgn hlength]
    · -- Only the sign makes the text a long one.
      have ht := hcs.trim_eq hsgn
      cases hsgn with
      | none => exact absurd hlength hshort
      | plus =>
        rw [List.cons_append, List.nil_append] at ht hshort ⊢
        rw [read_behind_sign (Or.inl rfl) ht (not_le.1 hshort), hcs.read_eq hlength]
        rfl
      | minus =>
        rw [List.cons_append, List.nil_append] at ht hshort ⊢
        rw [read_behind_sign (Or.inr rfl) ht (not_le.1 hshort), hcs.read_eq hlength]
        rfl

theorem Proper.not_blank {t : List Char} {i : ℤ} (h : Proper t i) :
    ∀ c ∈ t, isBlank c = false := by
  cases h with
  | digits hsgn hds =>
    exact List.forall_mem_append.2
      ⟨hsgn.not_blank, fun c hc => isBlank_of_isAsciiDigit (hds.all c hc)⟩
  | separated hsgn hcs _ => exact List.forall_mem_append.2 ⟨hsgn.not_blank, hcs.not_blank⟩

theorem Proper.ne_nil {t : List Char} {i : ℤ} (h : Proper t i) : t ≠ [] := by
  cases h with
  | digits hsgn hds => exact List.append_ne_nil_of_right_ne_nil _ hds.ne_nil
  | separated hsgn hcs _ =>
    obtain ⟨c, rest, rfl, -⟩ := hcs.head
    exact List.append_ne_nil_of_right_ne_nil _ (List.cons_ne_nil _ _)

/-- An accepted text does not end with a blank. -/
theorem Accepted.getLast?_not_blank {t : List Char} {i : ℤ} (h : Accepted t i) :
    t ≠ [] ∧ ∀ c ∈ t.getLast?, isBlank c = false := by
  induction h with
  | proper h => exact ⟨h.ne_nil, fun c hc => h.not_blank c (List.mem_of_getLast? hc)⟩
  | @again c b t i hc hb hlong h ih =>
    refine ⟨List.cons_ne_nil _ _, fun d hd => ih.2 d ?_⟩
    rwa [← List.cons_append, List.getLast?_append_of_ne_nil _ ih.1] at hd

theorem Accepted.trim_eq {t : List Char} {i : ℤ} (h : Accepted t i) : trim t = t := by
  refine Text.trimAll_of_ends ?_ h.getLast?_not_blank.2
  cases h with
  | proper h => exact fun c hc => h.not_blank c (List.mem_of_mem_head? hc)
  | again hc _ _ _ =>
    rintro d ⟨⟩
    exact hc.not_blank

/-- **Accepted texts are read.** -/
theorem Accepted.read_eq {t : List Char} {i : ℤ} (h : Accepted t i) : read t = .ok i := by
  induction h with
  | proper h => exact h.read_eq
  | @again c b t i hc hb hlong h ih =>
    have hwhole := (Accepted.again hc hb hlong h).trim_eq
    have hrest : trim (b ++ t) = t := by
      have hnone : trim (b ++ (t ++ [])) = t :=
        Text.trimAll_append hb nofun (Text.ends_of_trim_eq h.trim_eq).1 h.getLast?_not_blank.2
      rwa [List.append_nil] at hnone
    rw [read_behind_sign hc hwhole hlong, ← read_trim, hrest, ih]
    rfl

theorem all_isDigitLike_of_read {c : Char} {rest : List Char} {i : ℤ} (hc : ¬ IsSign c)
    (ht : trim (c :: rest) = c :: rest) (hlong : pieceDigits < (c :: rest).length)
    (h : read (c :: rest) = .ok i) : (c :: rest).all Text.isDigitLike = true := by
  have hplus : (c :: rest).head? ≠ some '+' := fun heq => hc (Or.inl (Option.some.inj heq))
  have hminus : (c :: rest).head? ≠ some '-' := fun heq => hc (Or.inr (Option.some.inj heq))
  rw [read] at h
  simp only [ht] at h
  rw [dif_neg (not_le.2 hlong), if_neg hplus, if_neg hminus] at h
  split at h
  · assumption
  · cases h

/-- Behind the sign of a trimmed text there are blanks to be trimmed at the start only. -/
theorem exists_eq_append_trim {c : Char} {rest : List Char} (ht : trim (c :: rest) = c :: rest) :
    ∃ b, rest = b ++ trim rest ∧ ∀ d ∈ b, isBlank d = true := by
  obtain ⟨b, v, hsplit, hb, hv⟩ := Text.exists_eq_trim_append rest
  have hnil : v = [] := by
    by_contra hne
    have hend : (c :: rest).getLast? = some (v.getLast hne) := by
      rw [hsplit, ← List.append_assoc, ← List.cons_append, List.getLast?_append_of_ne_nil _ hne,
        List.getLast?_eq_getLast_of_ne_nil hne]
    have hblank := hv _ (List.getLast_mem hne)
    rw [(Text.ends_of_trim_eq ht).2 _ hend] at hblank
    cases hblank
  rw [hnil, List.append_nil] at hsplit
  exact ⟨b, hsplit, hb⟩

/-- **Nothing else is read** among texts of ASCII characters. -/
theorem accepted_of_read {cs : List Char} {i : ℤ} (hascii : ∀ c ∈ cs, c.toNat < 128)
    (h : read cs = .ok i) : Accepted (trim cs) i := by
  induction hn : cs.length using Nat.strong_induction_on generalizing cs i with
  | _ n ih =>
    subst hn
    have hchars : ∀ c ∈ trim cs, c.toNat < 128 := by
      obtain ⟨u, v, hcs, -, -⟩ := Text.exists_eq_trim_append cs
      intro c hc
      refine hascii c ?_
      rw [hcs]
      exact List.mem_append_right _ (List.mem_append_left _ hc)
    have htrim := Text.trim_trim cs
    have hlength := length_trim_le cs
    rw [← read_trim] at h
    generalize trim cs = t at h htrim hlength hchars
    by_cases hshort : t.length ≤ pieceDigits
    · rw [read_short htrim hshort, readAtOnce] at h
      split at h <;> cases h
      rename_i hpiece
      exact .proper (.of_readPiece? htrim hchars hshort hpiece)
    · obtain ⟨c, rest, rfl⟩ := List.exists_cons_of_length_pos (Nat.zero_lt_of_lt (not_le.1 hshort))
      have hlong := not_le.1 hshort
      by_cases hc : IsSign c
      · rw [read_behind_sign hc htrim hlong] at h
        cases hread : read rest with
        | error e =>
          rw [hread] at h
          cases h
        | ok j =>
          rw [hread] at h
          cases h
          have hrest := ih rest.length hlength (fun d hd => hchars d (List.mem_cons_of_mem _ hd))
            hread rfl
          obtain ⟨b, hsplit, hb⟩ := exists_eq_append_trim htrim
          rw [hsplit] at hlong ⊢
          exact .again hc hb hlong hrest
      · have hall := all_isDigitLike_of_read hc htrim hlong h
        have hdigits : Digits (c :: rest) := ⟨List.cons_ne_nil _ _, fun d hd =>
          isAsciiDigit_of_isDigitLike (hchars d hd) (List.all_eq_true.1 hall d hd)⟩
        rw [read_digits hdigits] at h
        cases h
        exact .proper (.digits .none hdigits)

/-! ## Signs behind signs -/

theorem IsSign.signText {c : Char} (h : IsSign c) : SignText [c] (c == '-') := by
  rcases h with rfl | rfl
  · exact .plus
  · exact .minus

/-- A sign before a proper text makes another one, or there are two signs now. -/
theorem Proper.behind_sign {c : Char} {t : List Char} {i : ℤ} (h : Proper t i) (hc : IsSign c) :
    Proper (c :: t) (signed (c == '-') i) ∨ ∃ d rest, t = d :: rest ∧ IsSign d := by
  cases h with
  | digits hsgn hds =>
    cases hsgn with
    | none => exact Or.inl (.digits hc.signText hds)
    | plus => exact Or.inr ⟨_, _, rfl, Or.inl rfl⟩
    | minus => exact Or.inr ⟨_, _, rfl, Or.inr rfl⟩
  | separated hsgn hcs hlength =>
    cases hsgn with
    | none => exact Or.inl (.separated hc.signText hcs hlength)
    | plus => exact Or.inr ⟨_, _, rfl, Or.inl rfl⟩
    | minus => exact Or.inr ⟨_, _, rfl, Or.inr rfl⟩

theorem Accepted.proper_or_stacked {t : List Char} {i : ℤ} (h : Accepted t i) :
    Proper t i ∨ Stacked t := by
  cases h with
  | proper h => exact Or.inl h
  | @again c b t i hc hb hlong h =>
    cases b with
    | cons d b => exact Or.inr ⟨hlong, c, d, b ++ t, rfl, hc, Or.inr (hb d (List.mem_cons_self ..))⟩
    | nil =>
      cases h with
      | proper h =>
        rcases h.behind_sign hc with h | ⟨d, rest, rfl, hd⟩
        · exact Or.inl h
        · exact Or.inr ⟨hlong, c, d, rest, rfl, hc, Or.inl hd⟩
      | again hd _ _ _ => exact Or.inr ⟨hlong, c, _, _, rfl, hc, Or.inl hd⟩

/-- A digit comes behind the sign of a proper text. -/
theorem Proper.not_stacked {t : List Char} {i : ℤ} (h : Proper t i) : ¬ Stacked t := by
  have hdigit : ∀ {sgn cs : List Char} {negative : Bool}, SignText sgn negative →
      (∃ c rest, cs = c :: rest ∧ isAsciiDigit c = true) → ¬ Stacked (sgn ++ cs) := by
    rintro sgn cs negative hsgn ⟨e, after, rfl, he⟩ ⟨-, c, d, rest, hsplit, hc, hd⟩
    have hsign : ∀ {x : Char}, isAsciiDigit x = true → ¬ IsSign x := by
      rintro x hx (rfl | rfl) <;> exact absurd hx (by decide)
    cases hsgn with
    | none =>
      cases hsplit
      exact hsign he hc
    | plus | minus =>
      cases hsplit
      rcases hd with hd | hd
      · exact hsign he hd
      · rw [isBlank_of_isAsciiDigit he] at hd
        cases hd
  cases h with
  | digits hsgn hds => exact hdigit hsgn (separated_digits hds).head
  | separated hsgn hcs _ => exact hdigit hsgn hcs.head

/-- **The language of integers in ASCII characters.**  A text of any length is read as an integer
exactly if it is accepted as this integer, blanks around it apart.  Each proper text is read.  A
text that is read without being proper is a stacked one: it has more than `pieceDigits` characters,
and its sign has another sign or a blank behind it. -/
theorem read_ascii_iff {cs : List Char} (hascii : ∀ c ∈ cs, c.toNat < 128) :
    (∀ i, read cs = .ok i ↔ Accepted (trim cs) i) ∧
    (∀ i, Proper (trim cs) i → read cs = .ok i) ∧
    ∀ i, read cs = .ok i → (¬ Proper (trim cs) i ↔ Stacked (trim cs)) := by
  have hiff : ∀ i, read cs = .ok i ↔ Accepted (trim cs) i := by
    intro i
    constructor
    · exact accepted_of_read hascii
    · intro h
      rw [← read_trim]
      exact h.read_eq
  refine ⟨hiff, fun i h => (hiff i).2 (.proper h), fun i h => ⟨?_, fun hs hp => hp.not_stacked hs⟩⟩
  exact ((hiff i).1 h).proper_or_stacked.resolve_left

/-- Many ones. -/
def ones (k : ℕ) : List Char := List.replicate k '1'

theorem digits_ones {k : ℕ} (hk : 0 < k) : Digits (ones k) := by
  refine ⟨List.length_pos_iff.1 (by rwa [ones, List.length_replicate]), fun c hc => ?_⟩
  rw [List.eq_of_mem_replicate hc]
  decide

/-- A sign and blanks may stand before the sign of a long text. -/
theorem accepted_two_signs {k : ℕ} (hk : pieceDigits ≤ k) {b : List Char}
    (hb : ∀ d ∈ b, isBlank d = true) :
    Accepted ('+' :: (b ++ '-' :: ones k)) (-positional (ones k) : ℤ) := by
  have hones : 0 < k := (show 0 < pieceDigits by decide).trans_le hk
  refine .again (i := -positional (ones k)) (Or.inl rfl) hb ?_
    (.proper (.digits .minus (digits_ones hones)))
  simp only [List.length_cons, List.length_append, ones, List.length_replicate]
  omega

theorem stacked_two_signs {k : ℕ} (hk : pieceDigits ≤ k) {b : List Char}
    (hb : ∀ d ∈ b, isBlank d = true) : Stacked ('+' :: (b ++ '-' :: ones k)) := by
  refine ⟨?_, ?_⟩
  · simp only [List.length_cons, List.length_append, ones, List.length_replicate]
    omega
  · cases b with
    | nil => exact ⟨'+', '-', ones k, rfl, Or.inl rfl, Or.inl (Or.inr rfl)⟩
    | cons d b => exact ⟨'+', d, _, rfl, Or.inl rfl, Or.inr (hb d (List.mem_cons_self ..))⟩

theorem ascii_two_signs (k : ℕ) {b : List Char} (hb : ∀ d ∈ b, d = ' ') :
    ∀ c ∈ '+' :: (b ++ '-' :: ones k), c.toNat < 128 := by
  have hones : ∀ c ∈ ones k, c.toNat < 128 := by
    intro c hc
    rw [List.eq_of_mem_replicate hc]
    decide
  have hblanks : ∀ c ∈ b, c.toNat < 128 := by
    intro c hc
    rw [hb c hc]
    decide
  exact List.forall_mem_cons.2 ⟨by decide,
    List.forall_mem_append.2 ⟨hblanks, List.forall_mem_cons.2 ⟨by decide, hones⟩⟩⟩

/-- Two signs with a blank between them, before a thousand ones. -/
theorem read_ascii_two_signs :
    (∀ c ∈ '+' :: ([' '] ++ '-' :: ones pieceDigits), c.toNat < 128) ∧
    read ('+' :: ([' '] ++ '-' :: ones pieceDigits)) = .ok (-positional (ones pieceDigits) : ℤ) ∧
    ¬ Proper (trim ('+' :: ([' '] ++ '-' :: ones pieceDigits)))
      (-positional (ones pieceDigits) : ℤ) := by
  have hb : ∀ d ∈ [' '], isBlank d = true := fun d hd => by rw [List.mem_singleton.1 hd]; rfl
  have haccepted := accepted_two_signs le_rfl hb
  have hascii := ascii_two_signs pieceDigits fun d (hd : d ∈ [' ']) => List.mem_singleton.1 hd
  obtain ⟨hiff, -, himproper⟩ := read_ascii_iff hascii
  have hread := (hiff _).2 (by rwa [haccepted.trim_eq])
  refine ⟨hascii, hread, (himproper _ hread).2 ?_⟩
  rw [haccepted.trim_eq]
  exact stacked_two_signs le_rfl hb

/-- Two signs next to each other, before a thousand ones: read, and not a proper integer text. -/
theorem read_plus_minus :
    (∀ c ∈ '+' :: '-' :: ones pieceDigits, c.toNat < 128) ∧
    read ('+' :: '-' :: ones pieceDigits) = .ok (-positional (ones pieceDigits) : ℤ) ∧
    ∀ i, ¬ Proper (trim ('+' :: '-' :: ones pieceDigits)) i := by
  have haccepted := accepted_two_signs (b := []) le_rfl nofun
  refine ⟨ascii_two_signs pieceDigits (b := []) nofun, haccepted.read_eq, fun i hproper => ?_⟩
  have hstacked := stacked_two_signs (b := []) le_rfl nofun
  rw [← haccepted.trim_eq] at hstacked
  exact hproper.not_stacked hstacked

end Roundoff.Numeral
