import Roundoff.Proofs.Numeral.Written

/-! # Numerals of any size, from short pieces

A conversion in one piece, between a number and its digits, is for short numerals only: beyond
`quotableDigits` digits it may fail.  Here writing and reading are repeated with the conversion of a
piece left open (`integerBy`, `readBy`).  They give the same whatever that conversion does with more
than `quotableDigits` digits, so no piece that long is ever converted (`naturalBy_eq`,
`readBy_eq`).  What is written is the canonical numeral of the integer, of which there is only one
(`canonical_iff`), and it is read as the integer again, as every digit string is read as its
positional value.
-/
namespace Roundoff.Numeral

open Text (isAsciiDigit)

/-! ## Canonical numerals -/

/-- **The canonical numeral of an integer**: a minus sign before the digits of a negative one, and
no zero before other digits. -/
inductive Canonical : ℤ → List Char → Prop
  | mk {i : ℤ} {ds : List Char} : Digits ds → positional ds = i.natAbs →
      (ds.head? = some '0' → ds = ['0']) → Canonical i (if i < 0 then '-' :: ds else ds)

theorem integer_eq_ite (i : ℤ) :
    integer i = if i < 0 then '-' :: natural i.natAbs else natural i.natAbs := by
  cases i with
  | ofNat n => exact (if_neg (Int.not_lt.2 (Int.natCast_nonneg n))).symm
  | negSucc n => exact (if_pos (Int.negSucc_lt_zero n)).symm

/-- **An integer has one canonical numeral**, the one that is written. -/
theorem canonical_iff {i : ℤ} {cs : List Char} : Canonical i cs ↔ cs = integer i := by
  rw [integer_eq_ite]
  constructor
  · rintro ⟨h, hvalue, hzero⟩
    rw [← hvalue, natural_positional h hzero]
  · rintro rfl
    refine .mk (digits_natural _) (positional_natural _) fun hhead => ?_
    by_cases hi : i.natAbs = 0
    · rw [hi, natural_zero]
    · exact absurd hhead (head_natural_ne_zero (Nat.pos_of_ne_zero hi))

/-! ## Writing -/

section
variable (convert : ℕ → Option (List Char))

/-- Half of the estimate cuts a long number into two shorter ones. -/
theorem halves_lt {n : ℕ} (h : ¬ digitEstimate n ≤ pieceDigits) :
    n / 10 ^ (digitEstimate n / 2) < n ∧ n % 10 ^ (digitEstimate n / 2) < n := by
  have hpiece : pieceDigits = 1000 := rfl
  have hle : 10 ^ (digitEstimate n / 2) ≤ n := ten_pow_half_le h
  have hten : 1 < 10 ^ (digitEstimate n / 2) := Nat.one_lt_pow (by omega) (by decide)
  exact ⟨Nat.div_lt_self (by omega) hten, (Nat.mod_lt _ (by omega)).trans_le hle⟩

/-- Writing by halves, the pieces by a given conversion. -/
def naturalBy (n : ℕ) : Option (List Char) :=
  if h : digitEstimate n ≤ pieceDigits then convert n
  else
    have := halves_lt h
    (naturalBy (n / 10 ^ (digitEstimate n / 2))).bind fun high =>
      (naturalBy (n % 10 ^ (digitEstimate n / 2))).map fun low =>
        high ++ padZeros (digitEstimate n / 2) low
termination_by n
decreasing_by all_goals omega

/-- The numeral of an integer, the pieces by a given conversion. -/
def integerBy : ℤ → Option (List Char)
  | .ofNat n => naturalBy convert n
  | .negSucc n => (naturalBy convert (n + 1)).map ('-' :: ·)

end

/-- A piece has at most `quotableDigits` digits. -/
theorem length_digits_le {n : ℕ} (h : digitEstimate n ≤ pieceDigits) :
    (digits n).length ≤ quotableDigits := by
  have hbits : bitLength n ≤ quotableDigits := by
    have hpiece : pieceDigits = 1000 := rfl
    have hquotable : quotableDigits = 4300 := rfl
    rw [digitEstimate] at h
    omega
  refine (Nat.length_toDigits_le_iff (by decide) (by decide)).2 ?_
  exact (bitLength_le_iff.1 hbits).trans_le (Nat.pow_le_pow_left (by decide) _)

/-- **Only pieces of at most `quotableDigits` digits are written at once.** -/
theorem naturalBy_eq {convert : ℕ → Option (List Char)}
    (h : ∀ n, (digits n).length ≤ quotableDigits → convert n = some (digits n)) (n : ℕ) :
    naturalBy convert n = some (natural n) := by
  induction n using Nat.strong_induction_on with
  | _ n ih =>
    rw [naturalBy, natural]
    split
    · rename_i hshort
      exact h n (length_digits_le hshort)
    · rename_i hlong
      rw [ih _ (halves_lt hlong).1, ih _ (halves_lt hlong).2]
      rfl

theorem integerBy_eq {convert : ℕ → Option (List Char)}
    (h : ∀ n, (digits n).length ≤ quotableDigits → convert n = some (digits n)) (i : ℤ) :
    integerBy convert i = some (integer i) := by
  cases i with
  | ofNat n => exact naturalBy_eq h n
  | negSucc n =>
    rw [integerBy, naturalBy_eq h]
    rfl

/-! ## Reading -/

/-- A trimmed text read in one piece. -/
def readAtOnce (t : List Char) : Except ReadError ℤ :=
  match readPiece? t with
  | some i => .ok i
  | none => .error (.malformed t)

/-- What is left of a long text behind a sign, and its halves, are shorter texts. -/
theorem parts_lt {cs : List Char} (h : ¬ (Text.trim cs).length ≤ pieceDigits) :
    let t := Text.trim cs
    t.tail.length < cs.length ∧ (t.take (t.length - t.length / 2)).length < cs.length ∧
      (t.drop (t.length - t.length / 2)).length < cs.length := by
  have htrim := length_trim_le cs
  have hpiece : pieceDigits = 1000 := rfl
  simp only [List.length_tail, List.length_take, List.length_drop]
  omega

/-- Reading in pieces, each of them by a given conversion. -/
def readBy (convert : List Char → Except ReadError ℤ) (cs : List Char) : Except ReadError ℤ :=
  let t := Text.trim cs
  if h : t.length ≤ pieceDigits then convert t
  else
    have hparts := parts_lt h
    if t.head? = some '+' then readBy convert t.tail
    else if t.head? = some '-' then (readBy convert t.tail).map (- ·)
    else if t.all Text.isDigitLike then do
      let high ← readBy convert (t.take (t.length - t.length / 2))
      let low ← readBy convert (t.drop (t.length - t.length / 2))
      return high * 10 ^ (t.length / 2) + low
    else .error (.notDigits t.length)
termination_by cs.length
decreasing_by
  · exact hparts.1
  · exact hparts.1
  · exact hparts.2.1
  · exact hparts.2.2

/-- **Only pieces of at most `quotableDigits` characters are read at once**, of whatever text. -/
theorem readBy_eq {convert : List Char → Except ReadError ℤ}
    (h : ∀ t, t.length ≤ quotableDigits → convert t = readAtOnce t) (cs : List Char) :
    readBy convert cs = read cs := by
  induction hn : cs.length using Nat.strong_induction_on generalizing cs with
  | _ n ih =>
    subst hn
    rw [readBy, read]
    dsimp only
    split
    · rename_i hshort
      exact h _ (hshort.trans (by decide))
    · rename_i hlong
      obtain ⟨htail, htake, hdrop⟩ := parts_lt hlong
      rw [ih _ htail _ rfl, ih _ htake _ rfl, ih _ hdrop _ rfl]
      split
      · rfl
      · split
        · rfl
        · split
          · -- The value of a cut text is that of its two halves.
            cases read (List.take _ _) with
            | error e => rfl
            | ok high => cases read (List.drop _ _) <;> rfl
          · rfl

/-! ## Any size -/

/-- **Integers of any size have numerals, and these are read back.**  Writing an integer always
ends, and with its canonical numeral, which is read as the integer; a digit string is read as its
positional value, however long it is and however many zeros it starts with.  Both come about by
conversions of at most `quotableDigits` digits: they are the same with any other conversion of a
piece that is right about numerals so short, even if it fails on all longer ones. -/
theorem numerals_of_any_size :
    (∀ i cs, Canonical i cs ↔ cs = integer i) ∧
    (∀ i, read (integer i) = .ok i) ∧
    (∀ ds, Digits ds → read ds = .ok (positional ds : ℤ)) ∧
    (∀ convert : ℕ → Option (List Char),
      (∀ n, (digits n).length ≤ quotableDigits → convert n = some (digits n)) →
      ∀ i, integerBy convert i = some (integer i)) ∧
    ∀ convert : List Char → Except ReadError ℤ,
      (∀ t, t.length ≤ quotableDigits → convert t = readAtOnce t) →
      ∀ cs, readBy convert cs = read cs :=
  ⟨fun _ _ => canonical_iff, read_integer, fun _ => read_digits, fun _ => integerBy_eq,
    fun _ => readBy_eq⟩

/-- A conversion that fails on more than `quotableDigits` digits. -/
def limitedDigits (n : ℕ) : Option (List Char) :=
  if (digits n).length ≤ quotableDigits then some (digits n) else none

/-- A conversion that fails on more than `quotableDigits` characters. -/
def limitedRead (t : List Char) : Except ReadError ℤ :=
  if t.length ≤ quotableDigits then readAtOnce t else .error (.malformed t)

/-- A run of zeros is written in full, wherever the number is cut. -/
theorem canonical_ten_pow (k : ℕ) : Canonical (10 ^ k) ('1' :: List.replicate k '0') := by
  have hvalue : positional ('1' :: List.replicate k '0') = (10 ^ k : ℤ).natAbs := by
    rw [Int.natAbs_pow]
    exact positional_one_zeros k
  have hnumeral := Canonical.mk (digits_one_zeros k) hvalue nofun
  rwa [if_neg (not_lt.2 (by positivity))] at hnumeral

theorem digits_zeros_seven (k : ℕ) : Digits (List.replicate k '0' ++ ['7']) := by
  refine ⟨List.append_ne_nil_of_right_ne_nil _ (List.cons_ne_nil _ _),
    List.forall_mem_append.2 ⟨isAsciiDigit_zeros k, fun c hc => ?_⟩⟩
  rw [List.mem_singleton.1 hc]
  decide

/-- Five thousand zeros, behind a one and before a seven, under conversions that fail on them. -/
theorem numerals_of_five_thousand_zeros :
    integer (10 ^ 5000) = '1' :: List.replicate 5000 '0' ∧
    integerBy limitedDigits (10 ^ 5000) = some ('1' :: List.replicate 5000 '0') ∧
    readBy limitedRead ('1' :: List.replicate 5000 '0') = .ok (10 ^ 5000) ∧
    readBy limitedRead (List.replicate 5000 '0' ++ ['7']) = .ok 7 := by
  obtain ⟨hcanonical, hback, hdigits, hwritten, hread⟩ := numerals_of_any_size
  have hnumeral := (hcanonical _ _).1 (canonical_ten_pow 5000)
  have hseven : positional (List.replicate 5000 '0' ++ ['7']) = 7 :=
    positional_replicate_append 5000 ['7']
  refine ⟨hnumeral.symm, ?_, ?_, ?_⟩
  · rw [hwritten limitedDigits fun n hn => if_pos hn, hnumeral]
  · rw [hread limitedRead fun t ht => if_pos ht, hnumeral, hback]
  · rw [hread limitedRead fun t ht => if_pos ht, hdigits _ (digits_zeros_seven 5000), hseven]
    rfl

end Roundoff.Numeral
