/-! # Decimal numerals

The canonical decimal numeral of an integer: a minus sign for a negative number, then digits
without a superfluous leading zero.  A long number is written by halves: its digits above a
power of ten, then those below it, padded with zeros to their width.  No single conversion then
handles more than about a thousand digits, which keeps the cost of writing a number far below
the square of its length.
-/
namespace Roundoff.Numeral

-- A power with a natural exponent is the core library's, whatever else is in scope.
attribute [local instance (2000)] instPowNat

/-- The number of binary digits of a natural number; zero has none. -/
def bitLength (n : Nat) : Nat :=
  if n = 0 then 0 else n.log2 + 1

@[simp] theorem bitLength_zero : bitLength 0 = 0 := rfl

theorem bitLength_of_ne_zero {n : Nat} (h : n ≠ 0) : bitLength n = n.log2 + 1 :=
  if_neg h

/-- A number has at most `k` binary digits exactly when it is below `2 ^ k`. -/
theorem bitLength_le_iff {n k : Nat} : bitLength n ≤ k ↔ n < 2 ^ k := by
  by_cases h : n = 0
  · subst h
    exact iff_of_true (Nat.zero_le k) (Nat.two_pow_pos k)
  · rw [bitLength_of_ne_zero h, ← Nat.log2_lt h, Nat.succ_le_iff]

/-- The numeral of a natural number, written in one piece. -/
def digits (n : Nat) : List Char :=
  Nat.toDigits 10 n

/-- Numerals of at most this many digits, by the estimate below, are written in one piece. -/
def pieceDigits : Nat := 1000

/-- A lower estimate of the number of decimal digits: a binary digit is worth `log₁₀ 2`, here
rounded up in the fifth place, of a decimal one. -/
def digitEstimate (n : Nat) : Nat :=
  bitLength n * 30103 / 100000

/-- A text filled up with zeros on the left to a given width. -/
def padZeros (width : Nat) (cs : List Char) : List Char :=
  List.replicate (width - cs.length) '0' ++ cs

/-- Half of the estimate cuts a proper part off a long number. -/
theorem ten_pow_half_le {n : Nat} (h : ¬ digitEstimate n ≤ pieceDigits) :
    10 ^ (digitEstimate n / 2) ≤ n := by
  have hn : n ≠ 0 := by
    rintro rfl
    exact h (by decide)
  have hlog : 4 * (digitEstimate n / 2) ≤ n.log2 := by
    simp only [digitEstimate, pieceDigits, bitLength_of_ne_zero hn] at h ⊢
    omega
  calc 10 ^ (digitEstimate n / 2)
      ≤ (2 ^ (4 : Nat)) ^ (digitEstimate n / 2) := Nat.pow_le_pow_left (by decide) _
    _ = 2 ^ (4 * (digitEstimate n / 2)) := (Nat.pow_mul ..).symm
    _ ≤ 2 ^ n.log2 := Nat.pow_le_pow_right (by decide) hlog
    _ ≤ n := Nat.log2_self_le hn

/-- The numeral of a natural number of any size. -/
def natural (n : Nat) : List Char :=
  if h : digitEstimate n ≤ pieceDigits then digits n
  else
    let split := digitEstimate n / 2
    have hle : 10 ^ split ≤ n := ten_pow_half_le h
    have hlong : 2 ≤ digitEstimate n := by
      have : pieceDigits = 1000 := rfl
      omega
    have hten : 1 < 10 ^ split := Nat.one_lt_pow (by omega) (by decide)
    have : n / 10 ^ split < n := Nat.div_lt_self (by omega) hten
    have : n % 10 ^ split < n := Nat.lt_of_lt_of_le (Nat.mod_lt _ (by omega)) hle
    natural (n / 10 ^ split) ++ padZeros split (natural (n % 10 ^ split))
termination_by n

/-- The numeral of an integer of any size. -/
def integer : Int → List Char
  | .ofNat n => natural n
  | .negSucc n => '-' :: natural (n + 1)

/-- The numeral of an integer as a string. -/
def text (i : Int) : String :=
  String.ofList (integer i)

/-- A number that a message quotes in full has at most this many digits. -/
def quotableDigits : Nat := 4300

/-- An integer is short enough to be quoted in a message. -/
def isQuotable (i : Int) : Bool :=
  decide ((natural i.natAbs).length ≤ quotableDigits)

/-- What is said instead of a message that would quote a longer number. -/
def unquotableMessage : String :=
  "Exceeds the limit (" ++ text quotableDigits ++ " digits) for integer string conversion; "
    ++ "use sys.set_int_max_str_digits() to increase the limit"

example : integer (-120) = ['-', '1', '2', '0'] := by decide +kernel

end Roundoff.Numeral
