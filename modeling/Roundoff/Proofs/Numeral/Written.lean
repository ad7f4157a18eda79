import Roundoff.Proofs.Numeral.Positional

/-! # Numerals as they are written

Writing a long number by halves gives the same digits as writing it at once (`natural_eq`): the
lower half is below the power of ten that the number was cut at, so its zeros on the left are just
the digits it lacks.  The numeral is a digit string that spells the number, and no other one without
a superfluous zero does (`natural_positional`); it has at most `k` digits when the number is below
`10 ^ k`.
-/
namespace Roundoff.Numeral

open Text (isAsciiDigit)

/-! ## Writing by halves -/

/-- Filling up leaves the last digit where it is. -/
theorem padZeros_concat (width : ℕ) (cs : List Char) (c : Char) :
    padZeros (width + 1) (cs ++ [c]) = padZeros width cs ++ [c] := by
  rw [padZeros, padZeros, List.length_append, List.length_singleton, Nat.add_sub_add_right,
    List.append_assoc]

theorem padZeros_succ {width n : ℕ} (hwidth : 0 < width) :
    padZeros (width + 1) (Nat.toDigits 10 n) =
      padZeros width (Nat.toDigits 10 (n / 10)) ++ [Nat.digitChar (n % 10)] := by
  by_cases hn : n < 10
  · -- A single digit stands after zeros only.
    rw [Nat.toDigits_of_lt_base hn, Nat.div_eq_of_lt hn, Nat.mod_eq_of_lt hn, Nat.toDigits_zero,
      ← List.nil_append [Nat.digitChar n], padZeros_concat, List.nil_append]
    obtain ⟨k, rfl⟩ := Nat.exists_eq_succ_of_ne_zero hwidth.ne'
    simp [padZeros, List.replicate_succ']
  · rw [Nat.toDigits_of_base_le (by decide) (not_lt.1 hn), padZeros_concat]

/-- A number in two parts, the lower one filled up to its width. -/
theorem toDigits_append_padZeros {high low width : ℕ} (hhigh : 0 < high) (hwidth : 0 < width)
    (hlow : low < 10 ^ width) : Nat.toDigits 10 high ++ padZeros width (Nat.toDigits 10 low) =
      Nat.toDigits 10 (high * 10 ^ width + low) := by
  induction width generalizing low with
  | zero => cases hwidth
  | succ width ih =>
    by_cases hzero : width = 0
    · subst hzero
      have hten : low < 10 := by simpa using hlow
      have hpad : padZeros 1 (Nat.toDigits 10 low) = Nat.toDigits 10 low := by
        rw [Nat.toDigits_of_lt_base hten]
        rfl
      rw [zero_add, hpad, Nat.toDigits_append_toDigits (by decide) hhigh hten, pow_one, mul_comm]
    · have hlow' : low / 10 < 10 ^ width := by
        rw [pow_succ] at hlow
        exact Nat.div_lt_of_lt_mul (by omega)
      have hpos : 0 < 10 ^ width := by positivity
      have hsum : high * 10 ^ (width + 1) + low
          = 10 * (high * 10 ^ width + low / 10) + low % 10 := by
        rw [pow_succ, ← mul_assoc]
        omega
      have hfirst : 0 < high * 10 ^ width + low / 10 := Nat.add_pos_left (Nat.mul_pos hhigh hpos) _
      rw [padZeros_succ (Nat.pos_of_ne_zero hzero), ← List.append_assoc,
        ih (Nat.pos_of_ne_zero hzero) hlow', hsum,
        ← Nat.toDigits_append_toDigits (by decide) hfirst (Nat.mod_lt _ (by decide)),
        Nat.toDigits_of_lt_base (Nat.mod_lt _ (by decide))]

/-- **A number of any size has the numeral that writing it at once gives.** -/
theorem natural_eq (n : ℕ) : natural n = Nat.toDigits 10 n := by
  induction n using Nat.strong_induction_on with
  | _ n ih =>
    rw [natural]
    split
    · rfl
    · rename_i hlong
      dsimp only
      have hpiece : pieceDigits = 1000 := rfl
      have hle : 10 ^ (digitEstimate n / 2) ≤ n := ten_pow_half_le hlong
      have hwidth : 0 < digitEstimate n / 2 := by omega
      have hten : 1 < 10 ^ (digitEstimate n / 2) := Nat.one_lt_pow (by omega) (by decide)
      have hlow : n % 10 ^ (digitEstimate n / 2) < 10 ^ (digitEstimate n / 2) :=
        Nat.mod_lt _ (by omega)
      rw [ih _ (Nat.div_lt_self (by omega) hten), ih _ (hlow.trans_le hle),
        toDigits_append_padZeros (Nat.div_pos hle (by omega)) hwidth hlow, Nat.div_add_mod']

/-! ## The digits of a numeral -/

theorem isAsciiDigit_eq_isDigit (c : Char) : isAsciiDigit c = c.isDigit := by
  rw [Bool.eq_iff_iff, isAsciiDigit_iff, Char.isDigit]
  simp only [Bool.and_eq_true, decide_eq_true_eq]
  exact Iff.rfl

theorem digits_natural (n : ℕ) : Digits (natural n) := by
  rw [natural_eq]
  refine ⟨Nat.toDigits_ne_nil, fun c hc => ?_⟩
  rw [isAsciiDigit_eq_isDigit]
  exact Nat.isDigit_of_mem_toDigits (by decide) (by decide) hc

theorem positional_digitChar {d : ℕ} (hd : d < 10) : positional [Nat.digitChar d] = d := by
  rw [positional, List.reverse_singleton, List.map_singleton, Nat.ofDigits_singleton]
  exact Nat.toNat_digitChar_sub_48_of_lt_ten hd

/-- **The numeral of a number spells it.** -/
theorem positional_natural (n : ℕ) : positional (natural n) = n := by
  rw [natural_eq]
  induction n using Nat.strong_induction_on with
  | _ n ih =>
    by_cases hn : n < 10
    · rw [Nat.toDigits_of_lt_base hn, positional_digitChar hn]
    · rw [Nat.toDigits_of_base_le (by decide) (not_lt.1 hn), positional_append,
        positional_digitChar (Nat.mod_lt _ (by decide)), ih _ (by omega), List.length_singleton,
        pow_one]
      exact Nat.div_add_mod' n 10

theorem length_natural_le_iff {n k : ℕ} (hk : 0 < k) : (natural n).length ≤ k ↔ n < 10 ^ k := by
  rw [natural_eq]
  exact Nat.length_toDigits_le_iff (by decide) hk

/-- A digit string of `k` digits spells a number below `10 ^ k`. -/
theorem positional_lt {ds : List Char} (h : ∀ c ∈ ds, isAsciiDigit c = true) :
    positional ds < 10 ^ ds.length := by
  have hlt := Nat.ofDigits_lt_base_pow_length (b := 10)
    (l := ds.reverse.map fun c => c.toNat - '0'.toNat) (by decide) (by
      intro d hd
      obtain ⟨c, hc, rfl⟩ := List.mem_map.1 hd
      have hdigit := isAsciiDigit_iff.1 (h c (List.mem_reverse.1 hc))
      have hzero : '0'.toNat = 48 := rfl
      omega)
  rwa [List.length_map, List.length_reverse] at hlt

/-- The numeral of a positive number does not start with a zero. -/
theorem head_natural_ne_zero {n : ℕ} (hn : 0 < n) : (natural n).head? ≠ some '0' := by
  intro hhead
  obtain ⟨ds, hds⟩ := List.head?_eq_some_iff.1 hhead
  have hall := (digits_natural n).all
  have hspelled := positional_natural n
  rw [hds] at hall hspelled
  have hsplit : positional ('0' :: ds) = positional ds := positional_replicate_append 1 ds
  have hlt : n < 10 ^ ds.length := by
    rw [← hspelled, hsplit]
    exact positional_lt fun c hc => hall c (List.mem_cons_of_mem _ hc)
  by_cases hnil : ds = []
  · rw [hnil, List.length_nil, pow_zero] at hlt
    omega
  · have hle := (length_natural_le_iff (List.length_pos_iff.2 hnil)).2 hlt
    rw [hds, List.length_cons] at hle
    omega

theorem digitChar_of_isAsciiDigit {c : Char} (h : isAsciiDigit c = true) :
    Nat.digitChar (c.toNat - '0'.toNat) = c := by
  obtain ⟨hlow, hhigh⟩ := isAsciiDigit_iff.1 h
  have hc : c = Char.ofNat c.toNat := (Char.ofNat_toNat c).symm
  rw [hc]
  generalize c.toNat = n at hlow hhigh
  interval_cases n <;> rfl

theorem natural_zero : natural 0 = ['0'] := by
  rw [natural_eq]
  rfl

theorem natural_concat {n d : ℕ} (hn : 0 < n) (hd : d < 10) :
    natural (n * 10 + d) = natural n ++ [Nat.digitChar d] := by
  rw [natural_eq, natural_eq, ← Nat.toDigits_of_lt_base hd,
    Nat.toDigits_append_toDigits (by decide) hn hd, mul_comm]

/-- **Digits without a superfluous zero are the numeral of what they spell.** -/
theorem natural_positional {ds : List Char} (h : Digits ds)
    (hzero : ds.head? = some '0' → ds = ['0']) : natural (positional ds) = ds := by
  induction ds using List.reverseRecOn with
  | nil => exact absurd rfl h.ne_nil
  | append_singleton ds c ih =>
    have hc := h.all c (List.mem_append_right _ (List.mem_singleton_self c))
    have hten : c.toNat - '0'.toNat < 10 := by
      have hdigit := isAsciiDigit_iff.1 hc
      have hnought : '0'.toNat = 48 := rfl
      omega
    have hlast : positional [c] = c.toNat - '0'.toNat := by
      rw [positional, List.reverse_singleton, List.map_singleton, Nat.ofDigits_singleton]
    rw [positional_append, hlast, List.length_singleton, pow_one]
    by_cases hnil : ds = []
    · rw [hnil, show positional [] * 10 = 0 from rfl, Nat.zero_add, natural_eq,
        Nat.toDigits_of_lt_base hten, digitChar_of_isAsciiDigit hc, List.nil_append]
    · -- The digits before the last one have no superfluous zero either, so they spell no zero.
      have hhead : ds.head? ≠ some '0' := by
        intro heq
        rw [List.head?_append_of_ne_nil _ hnil] at hzero
        rcases List.append_eq_singleton_iff.1 (hzero heq) with ⟨hbefore, -⟩ | ⟨-, hlast⟩
        · exact hnil hbefore
        · cases hlast
      have hbefore := ih ⟨hnil, fun d hd => h.all d (List.mem_append_left _ hd)⟩
        fun heq => absurd heq hhead
      have hpos : 0 < positional ds := by
        refine Nat.pos_of_ne_zero fun heq => hhead ?_
        rw [← hbefore, heq, natural_zero]
        rfl
      rw [natural_concat hpos hten, hbefore, digitChar_of_isAsciiDigit hc]

/-- A number between two powers of ten has one digit more than the lower exponent. -/
theorem length_natural_eq {n k : ℕ} (hlow : 10 ^ k ≤ n) (hhigh : n < 10 ^ (k + 1)) :
    (natural n).length = k + 1 := by
  have hbound := positional_lt (digits_natural n).all
  rw [positional_natural] at hbound
  have hlonger := (Nat.pow_lt_pow_iff_right (by decide)).1 (hlow.trans_lt hbound)
  have hlength := (length_natural_le_iff (Nat.succ_pos k)).2 hhigh
  omega

/-- The numeral of an integer is read as the integer. -/
theorem read_integer (i : ℤ) : read (integer i) = .ok i := by
  cases i with
  | ofNat n =>
    show read (natural n) = _
    rw [read_digits (digits_natural n), positional_natural]
    rfl
  | negSucc n =>
    show read ('-' :: natural (n + 1)) = _
    rw [read_cons_sign (digits_natural _) (Or.inr rfl), if_pos rfl, positional_natural]
    rfl

/-- An integer is quotable when it has at most `quotableDigits` digits. -/
theorem isQuotable_iff {i : ℤ} : isQuotable i = true ↔ i.natAbs < 10 ^ quotableDigits := by
  rw [isQuotable, decide_eq_true_eq, length_natural_le_iff (by decide)]

end Roundoff.Numeral
