import Roundoff.Expansion.Agreement
import Roundoff.Proofs.Exact.Height
import Roundoff.Proofs.Expansion.Division
import Roundoff.Proofs.Numeral.Written

/-! # The digits of a rational

The decimal rendering of a rational, defined from whole parts alone: the sign, the whole part, the
point and then the digits, as many as one likes (`rendering`).  The unending form of an expansion
has the same digits, except that a truncated one continues with zeros (`symbols_ofRat`).
-/
namespace Roundoff.Expansion

open Numeral (natural)

/-! ## Renderings -/

/-- The digits of a rational after the point, counted from zero. -/
def pointDigit (x : ℚ) (k : ℕ) : ℕ := ⌊|x| * 10 ^ (k + 1)⌋₊ % 10

/-- The sign of a rational, written. -/
def signChars (x : ℚ) : List Char := if x < 0 then ['-'] else []

/-- A whole part, the point, and `n` digits. -/
def written (whole : List Char) (digit : ℕ → ℕ) (n : ℕ) : List Char :=
  whole ++ '.' :: (List.range n).map fun k => Nat.digitChar (digit k)

/-- **The decimal rendering of a rational** up to the digit with number `n`. -/
def rendering (x : ℚ) (n : ℕ) : List Char :=
  signChars x ++ written (natural ⌊|x|⌋₊) (pointDigit x) n

/-- Some characters are a beginning of the infinite rendering of a rational. -/
def Begins (cs : List Char) (x : ℚ) : Prop :=
  ∃ n, cs <+: rendering x n

theorem length_written (whole : List Char) (digit : ℕ → ℕ) (n : ℕ) :
    (written whole digit n).length = whole.length + 1 + n := by
  simp only [written, List.length_append, List.length_cons, List.length_map, List.length_range]
  omega

theorem length_rendering (x : ℚ) (n : ℕ) :
    (rendering x n).length = (signChars x).length + (natural ⌊|x|⌋₊).length + 1 + n := by
  rw [rendering, List.length_append, length_written]
  omega

/-- A longer writing starts with a shorter one, if their digits agree so far. -/
theorem written_isPrefix {whole : List Char} {f g : ℕ → ℕ} {m n : ℕ} (hle : m ≤ n)
    (h : ∀ k < m, f k = g k) : written whole f m <+: written whole g n := by
  obtain ⟨j, rfl⟩ := Nat.exists_eq_add_of_le hle
  have hsame : (List.range m).map (fun k => Nat.digitChar (f k)) =
      (List.range m).map fun k => Nat.digitChar (g k) :=
    List.map_congr_left fun k hk => by rw [h k (List.mem_range.1 hk)]
  rw [written, written, List.range_add, List.map_append, hsame, ← List.cons_append,
    ← List.append_assoc]
  exact List.prefix_append _ _

/-! ## The fraction of a rational -/

variable (x : ℚ)

theorem floor_abs : ⌊|x|⌋₊ = x.num.natAbs / x.den := by
  rw [Exact.abs_eq_div, Nat.floor_div_eq_div]

/-- The digits of a rational are those of the long division of its fraction. -/
theorem pointDigit_eq (k : ℕ) : pointDigit x k = digitAt (x.num.natAbs % x.den) x.den k := by
  have hcast : |x| * 10 ^ (k + 1) = ((x.num.natAbs * 10 ^ (k + 1) : ℕ) : ℚ) / x.den := by
    rw [Exact.abs_eq_div]
    push_cast
    ring
  -- The whole part of the rational only adds a multiple of ten.
  have hsplit : x.num.natAbs * 10 ^ (k + 1) =
      x.den * (x.num.natAbs / x.den * 10 ^ k * 10) + x.num.natAbs % x.den * 10 ^ (k + 1) := by
    conv_lhs => rw [← Nat.div_add_mod x.num.natAbs x.den]
    rw [pow_succ]
    ring
  rw [pointDigit, hcast, Nat.floor_div_eq_div, hsplit, Nat.mul_add_div x.den_pos, add_comm,
    Nat.add_mul_mod_self_right, digitAt_eq x.den_pos]

theorem pointDigit_lt (k : ℕ) : pointDigit x k < 10 :=
  Nat.mod_lt _ (by decide)

/-! ## The unending form -/

theorem digitChars_eq_map {ds : List ℕ} (h : ∀ d ∈ ds, d < 10) :
    digitChars ds = ds.map Nat.digitChar := by
  induction ds with
  | nil => rfl
  | cons d ds ih =>
    have hd : natural d = [Nat.digitChar d] := by
      rw [Numeral.natural_eq, Nat.toDigits_of_lt_base (h d (List.mem_cons_self ..))]
    rw [digitChars, List.flatMap_cons, hd]
    exact congrArg (Nat.digitChar d :: ·) (ih fun e he => h e (List.mem_cons_of_mem _ he))

theorem digitChars_map_range {f : ℕ → ℕ} (hf : ∀ k, f k < 10) (n : ℕ) :
    digitChars ((List.range n).map f) = (List.range n).map fun k => Nat.digitChar (f k) := by
  rw [digitChars_eq_map fun d hd => by
    obtain ⟨k, -, rfl⟩ := List.mem_map.1 hd
    exact hf k, List.map_map]
  rfl

/-- Digits of a function that is zero from some number on, and zeros. -/
theorem take_digits_zeros {f : ℕ → ℕ} {k : ℕ} (h : ∀ i, k ≤ i → f i = 0) (m : ℕ) :
    ((List.range k).map (fun i => Nat.digitChar (f i)) ++ List.replicate m '0').take m =
      (List.range m).map fun i => Nat.digitChar (f i) := by
  refine List.ext_getElem (by simp) fun i hi _ => ?_
  rw [List.getElem_take, List.getElem_append]
  by_cases hik : i < k
  · simp [hik]
  · simp [hik, h i (not_lt.1 hik)]

/-- Digits of a function, and then its digits again from some number on. -/
theorem take_digits_period (f : ℕ → ℕ) (s m : ℕ) :
    ((List.range s).map (fun i => Nat.digitChar (f i)) ++
      (List.range m).map fun i => Nat.digitChar (f (s + i))).take m =
      (List.range m).map fun i => Nat.digitChar (f i) := by
  refine List.ext_getElem (by simp) fun i hi _ => ?_
  rw [List.getElem_take, List.getElem_append]
  by_cases his : i < s
  · simp [his]
  · simp [his, Nat.add_sub_cancel' (not_lt.1 his)]

theorem getD_toArray_map_range (f : ℕ → Char) {n i : ℕ} (h : i < n) :
    ((List.range n).map f).toArray.getD i '0' = f i := by
  simp [Array.getD, h]

/-- The characters after the point in the unending form, zeros standing for unknown digits. -/
theorem Divided.take_fraction {r d n : ℕ} {negative : Bool} {whole : ℤ} {e : Expansion}
    (h : Divided r d n negative whole e) (hd : 0 < d) (m : ℕ) :
    (digitChars e.fixed ++ e.continuation m).take m = (List.range m).map fun k =>
      Nat.digitChar (if e.truncated = true ∧ n ≤ k then 0 else digitAt r d k) := by
  have hlt := digitAt_lt hd (r := r)
  cases h with
  | @ended k hk hzero =>
    simp only [Bool.false_eq_true, false_and, if_false]
    rw [digitChars_map_range hlt]
    exact take_digits_zeros (fun i hi => digitAt_of_remainderAt_eq_zero hzero hi) m
  | @periodic s k hsk hk heq hne =>
    have hpos : 0 < k - s := Nat.sub_pos_of_lt hsk
    have hnonempty : ((List.range (k - s)).map fun i => digitAt r d (s + i)).isEmpty = false := by
      simp [hpos.ne']
    simp only [Bool.false_eq_true, false_and, if_false]
    rw [digitChars_map_range hlt, continuation, isRepeating]
    simp only [hnonempty, Bool.not_false, if_true]
    rw [digitChars_map_range fun i => hlt (s + i)]
    have hperiod : ∀ i, ((List.range (k - s)).map fun i =>
        Nat.digitChar (digitAt r d (s + i))).toArray.getD (i % (k - s)) '0' =
        Nat.digitChar (digitAt r d (s + i)) := by
      intro i
      rw [getD_toArray_map_range _ (Nat.mod_lt i hpos), ← digitAt_of_remainderAt_eq hsk heq]
    simp only [List.size_toArray, List.length_map, List.length_range, hperiod]
    exact take_digits_period (digitAt r d) s m
  | cut hne =>
    have hknown : (List.range n).map (digitAt r d) =
        (List.range n).map fun k => if n ≤ k then 0 else digitAt r d k :=
      List.map_congr_left fun k hk => (if_neg (not_le.2 (List.mem_range.1 hk))).symm
    simp only [true_and]
    rw [hknown, digitChars_map_range fun k => ?_]
    · exact take_digits_zeros (fun i hi => if_pos hi) m
    · split
      · decide
      · exact hlt k

theorem take_append_take (whole : List Char) (c : Char) (cs : List Char) (m : ℕ) :
    (whole ++ c :: cs).take m = (whole ++ c :: cs.take m).take m := by
  rw [List.take_append, List.take_append, ← List.take_succ_cons, List.take_take,
    Nat.min_eq_left (by omega)]

/-- The digits that the unending form of an expansion has: those of the rational, but zeros where
they are not known. -/
def shownDigit (n k : ℕ) : ℕ :=
  if (ofRat x n).truncated = true ∧ n ≤ k then 0 else pointDigit x k

theorem integer_whole_ofRat (n : ℕ) : Numeral.integer (ofRat x n).whole = natural ⌊|x|⌋₊ := by
  have hdivided := divided_ofRat x n
  rw [floor_abs]
  generalize ofRat x n = e at hdivided
  cases hdivided <;> rfl

/-- **The unending form of the expansion of a rational.** -/
theorem symbols_ofRat (n m : ℕ) :
    (ofRat x n).symbols m = (written (natural ⌊|x|⌋₊) (shownDigit x n) m).take m := by
  rw [symbols, integer_whole_ofRat, List.append_assoc, List.cons_append, take_append_take,
    (divided_ofRat x n).take_fraction x.den_pos]
  simp only [written, shownDigit, pointDigit_eq]

end Roundoff.Expansion
