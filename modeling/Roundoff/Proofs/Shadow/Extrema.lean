import Roundoff.Proofs.Dual.Steps
import Roundoff.Proofs.Shadow.Exactness

/-! # The smaller and the larger shadow

The bit patterns of the numbers lie on one line, the negative zero right below the positive one, and
`rank` is the place of a pattern there.  Of two numbers `minimum` takes the one of lower rank and
`maximum` the one of higher rank (`rank_minimum`, `rank_maximum`), and no two patterns share a rank,
so that they obey the laws of a lattice bit for bit as the operations on ranks do (`ByRank`).  A NaN
makes either a NaN.  For finite values they stand for the smaller and the larger of the rationals.
-/
namespace Roundoff

namespace Binary64

variable {x y : Binary64}

/-! ## Ranks -/

/-- The place of a bit pattern among all of them: the patterns with a sign, from the largest
magnitude to the smallest, and then those without a sign. -/
def rank (x : Binary64) : ℤ :=
  if x.negative then -x.magnitude - 1 else x.magnitude

theorem rank_injective : Function.Injective rank := by
  rintro ⟨s, m, hm⟩ ⟨t, n, hn⟩ h
  simp only [rank] at h
  have hsign : s = t := by
    cases s <;> cases t <;> simp at h ⊢ <;> omega
  subst hsign
  have hmagnitude : m = n := by
    split at h <;> omega
  subst hmagnitude
  rfl

theorem rank_lt_of_ordinal_lt (h : x.ordinal < y.ordinal) : x.rank < y.rank := by
  rw [ordinal, ordinal] at h
  rw [rank, rank]
  split_ifs at h ⊢ <;> omega

/-- Two patterns of one number are the same, or they are the two zeros. -/
theorem rank_le_of_ordinal_eq (h : x.ordinal = y.ordinal) :
    (x.negative = true → x.rank ≤ y.rank) ∧ (x.negative = false → y.rank ≤ x.rank) := by
  rw [ordinal, ordinal] at h
  rw [rank, rank]
  constructor
  · intro hsign
    simp only [hsign, if_true] at h ⊢
    split_ifs at h ⊢ <;> omega
  · intro hsign
    simp only [hsign, Bool.false_eq_true, if_false] at h ⊢
    split_ifs at h ⊢ <;> omega

/-! ## Choosing by rank -/

/-- **The smaller number is the one of lower rank.** -/
theorem rank_minimum (hx : x.isNaN = false) (hy : y.isNaN = false) :
    (x.minimum y).rank = min x.rank y.rank := by
  rw [minimum, compare?_of_numbers hx hy]
  cases hcmp : Ord.compare x.ordinal y.ordinal with
  | lt => exact (min_eq_left (rank_lt_of_ordinal_lt (compare_lt_iff_lt.1 hcmp)).le).symm
  | gt => exact (min_eq_right (rank_lt_of_ordinal_lt (compare_gt_iff_gt.1 hcmp)).le).symm
  | eq =>
    have hle := rank_le_of_ordinal_eq (compare_eq_iff_eq.1 hcmp)
    cases hsign : x.negative with
    | true => exact (min_eq_left (hle.1 hsign)).symm
    | false => exact (min_eq_right (hle.2 hsign)).symm

theorem rank_neg (x : Binary64) : x.neg.rank = -x.rank - 1 := by
  rw [rank, rank, neg]
  cases x.negative <;> simp

/-- The larger number is the opposite of the smaller opposite. -/
theorem maximum_eq_neg_minimum (hx : x.isNaN = false) (hy : y.isNaN = false) :
    x.maximum y = (x.neg.minimum y.neg).neg := by
  rw [maximum, minimum, compare?_of_numbers hx hy,
    compare?_of_numbers (x := x.neg) (y := y.neg) hx hy, ordinal_neg, ordinal_neg]
  rcases lt_trichotomy x.ordinal y.ordinal with hlt | heq | hgt
  · rw [compare_lt_iff_lt.2 hlt, compare_gt_iff_gt.2 (neg_lt_neg hlt)]
    exact (neg_neg y).symm
  · rw [compare_eq_iff_eq.2 heq, compare_eq_iff_eq.2 (congrArg Neg.neg heq)]
    change (if x.negative then y else x) = (if !x.negative then x.neg else y.neg).neg
    cases x.negative with
    | true => exact (neg_neg y).symm
    | false => exact (neg_neg x).symm
  · rw [compare_gt_iff_gt.2 hgt, compare_lt_iff_lt.2 (neg_lt_neg hgt)]
    exact (neg_neg x).symm

/-- **The larger number is the one of higher rank.** -/
theorem rank_maximum (hx : x.isNaN = false) (hy : y.isNaN = false) :
    (x.maximum y).rank = max x.rank y.rank := by
  have hopposite := rank_minimum (x := x.neg) (y := y.neg) hx hy
  rw [rank_neg x, rank_neg y] at hopposite
  rw [maximum_eq_neg_minimum hx hy, rank_neg, hopposite]
  omega

/-! ## NaNs -/

theorem minimum_eq_nan (h : (x.isNaN || y.isNaN) = true) : x.minimum y = nan := by
  rw [minimum, compare?, if_pos h]

theorem maximum_eq_nan (h : (x.isNaN || y.isNaN) = true) : x.maximum y = nan := by
  rw [maximum, compare?, if_pos h]

/-- The smaller value is a NaN exactly if one of the two is. -/
theorem isNaN_minimum (x y : Binary64) : (x.minimum y).isNaN = (x.isNaN || y.isNaN) := by
  cases h : x.isNaN || y.isNaN with
  | true =>
    rw [minimum_eq_nan h]
    rfl
  | false =>
    obtain ⟨hx, hy⟩ := Bool.or_eq_false_iff.1 h
    have hmem : x.minimum y = x ∨ x.minimum y = y := by
      rw [minimum, compare?_of_numbers hx hy]
      cases Ord.compare x.ordinal y.ordinal <;> cases x.negative <;> simp
    rcases hmem with heq | heq
    · rw [heq, hx]
    · rw [heq, hy]

/-- The larger value is a NaN exactly if one of the two is. -/
theorem isNaN_maximum (x y : Binary64) : (x.maximum y).isNaN = (x.isNaN || y.isNaN) := by
  cases h : x.isNaN || y.isNaN with
  | true =>
    rw [maximum_eq_nan h]
    rfl
  | false =>
    obtain ⟨hx, hy⟩ := Bool.or_eq_false_iff.1 h
    rw [maximum_eq_neg_minimum hx hy, isNaN_neg, isNaN_minimum, isNaN_neg, isNaN_neg, h]

/-! ## The laws of a lattice -/

/-- Equal bits, all patterns of NaN taken for one. -/
def Alike (x y : Binary64) : Prop :=
  x = y ∨ x.isNaN = true ∧ y.isNaN = true

/-- An operation on values that goes by an operation on ranks: it has a NaN if one of its operands
is one, and of two numbers it has the one whose rank the other operation gives. -/
structure ByRank (f : Binary64 → Binary64 → Binary64) (g : ℤ → ℤ → ℤ) : Prop where
  eq_nan : ∀ {x y}, (x.isNaN || y.isNaN) = true → f x y = nan
  isNaN : ∀ x y, (f x y).isNaN = (x.isNaN || y.isNaN)
  rank : ∀ {x y}, x.isNaN = false → y.isNaN = false → (f x y).rank = g x.rank y.rank

theorem minimum_byRank : ByRank minimum min :=
  ⟨minimum_eq_nan, isNaN_minimum, rank_minimum⟩

theorem maximum_byRank : ByRank maximum max :=
  ⟨maximum_eq_nan, isNaN_maximum, rank_maximum⟩

namespace ByRank

variable {f f' : Binary64 → Binary64 → Binary64} {g g' : ℤ → ℤ → ℤ}

theorem comm (hf : ByRank f g) (hg : ∀ i j, g i j = g j i) (x y : Binary64) : f x y = f y x := by
  cases h : x.isNaN || y.isNaN with
  | true => rw [hf.eq_nan h, hf.eq_nan ((Bool.or_comm ..).trans h)]
  | false =>
    obtain ⟨hx, hy⟩ := Bool.or_eq_false_iff.1 h
    apply rank_injective
    rw [hf.rank hx hy, hf.rank hy hx, hg]

theorem assoc (hf : ByRank f g) (hg : ∀ i j k, g (g i j) k = g i (g j k)) (x y z : Binary64) :
    f (f x y) z = f x (f y z) := by
  have hleft := hf.isNaN x y
  have hright := hf.isNaN y z
  cases h : x.isNaN || (y.isNaN || z.isNaN) with
  | true => rw [hf.eq_nan (y := z) (by rw [hleft, Bool.or_assoc, h]),
      hf.eq_nan (x := x) (by rw [hright, h])]
  | false =>
    simp only [Bool.or_eq_false_iff] at h
    obtain ⟨hx, hy, hz⟩ := h
    rw [hx, hy] at hleft
    rw [hy, hz] at hright
    apply rank_injective
    rw [hf.rank hleft hz, hf.rank hx hy, hf.rank hx hright, hf.rank hy hz, hg]

theorem alike_self (hf : ByRank f g) (hg : ∀ i, g i i = i) (x : Binary64) : Alike (f x x) x := by
  cases hx : x.isNaN with
  | true => exact Or.inr ⟨(hf.isNaN x x).trans (by rw [hx]; rfl), hx⟩
  | false => exact Or.inl (rank_injective (by rw [hf.rank hx hx, hg]))

/-- Operations absorb each other on numbers if they do on ranks. -/
theorem absorb (hf : ByRank f g) (hf' : ByRank f' g') (hg : ∀ i j, g i (g' i j) = i)
    (hx : x.isNaN = false) (hy : y.isNaN = false) : f x (f' x y) = x := by
  have hinner : (f' x y).isNaN = false := by rw [hf'.isNaN, hx, hy, Bool.or_self]
  apply rank_injective
  rw [hf.rank hx hinner, hf'.rank hx hy, hg]

end ByRank

end Binary64

namespace Shadow

open Binary64 (minimum_byRank maximum_byRank)

/-- **The smaller and the larger shadow obey the laws of a lattice**, bit for bit: they are
commutative, associative and idempotent, and absorb each other.  A NaN absorbs everything, all its
patterns being one; the negative zero is below the positive one.  Finite shadows have the smaller
and the larger of their rationals, as the exact functions choose them. -/
theorem extrema_form_lattice :
    (∀ a b : Shadow, (a.minimum b).value = (b.minimum a).value ∧
      (a.maximum b).value = (b.maximum a).value) ∧
    (∀ a b c : Shadow, ((a.minimum b).minimum c).value = (a.minimum (b.minimum c)).value ∧
      ((a.maximum b).maximum c).value = (a.maximum (b.maximum c)).value) ∧
    (∀ a : Shadow, (a.minimum a).value.Alike a.value ∧ (a.maximum a).value.Alike a.value) ∧
    (∀ a b : Shadow, a.value.isNaN = true ∨ b.value.isNaN = true →
      (a.minimum b).value = .nan ∧ (a.maximum b).value = .nan) ∧
    (∀ a b : Shadow, a.value = .zero true → b.value = .zero false →
      (a.minimum b).value = .zero true ∧ (b.minimum a).value = .zero true ∧
      (a.maximum b).value = .zero false ∧ (b.maximum a).value = .zero false) ∧
    (∀ a b : Shadow, a.value.isNaN = false → b.value.isNaN = false →
      (a.minimum (a.maximum b)).value = a.value ∧ (a.maximum (a.minimum b)).value = a.value) ∧
    ∀ (a b : Shadow) (p q : ℚ), a.value.rational = .ok p → b.value.rational = .ok q →
      (a.minimum b).value.rational = .ok (Exact.min p q) ∧
      (a.maximum b).value.rational = .ok (Exact.max p q) := by
  refine ⟨?_, ?_, ?_, ?_, ?_, ?_, ?_⟩
  · intro a b
    exact ⟨minimum_byRank.comm min_comm _ _, maximum_byRank.comm max_comm _ _⟩
  · intro a b c
    exact ⟨minimum_byRank.assoc min_assoc _ _ _, maximum_byRank.assoc max_assoc _ _ _⟩
  · intro a
    exact ⟨minimum_byRank.alike_self min_self _, maximum_byRank.alike_self max_self _⟩
  · intro a b h
    rw [← Bool.or_eq_true] at h
    exact ⟨minimum_byRank.eq_nan h, maximum_byRank.eq_nan h⟩
  · intro a b ha hb
    simp only [value_minimum, value_maximum, ha, hb]
    decide
  · intro a b ha hb
    exact ⟨minimum_byRank.absorb maximum_byRank (fun _ _ => min_eq_left (le_max_left _ _)) ha hb,
      maximum_byRank.absorb minimum_byRank (fun _ _ => max_eq_left (min_le_left _ _)) ha hb⟩
  · intro a b p q ha hb
    rw [DualValue.min_eq, DualValue.max_eq]
    exact ⟨Binary64.rational_minimum ha hb, Binary64.rational_maximum ha hb⟩

/-- The negative zero and minus infinity absorb each other, a NaN with a sign absorbs the largest
finite value, and a half is smaller than one also as a rational. -/
theorem extrema_form_lattice_special :
    (minimum ⟨.zero true, []⟩ (maximum ⟨.zero true, []⟩ ⟨.infinity true, []⟩)).value = .zero true ∧
    (maximum ⟨.ofBits 0xFFF8000000000000, []⟩ ⟨.ofBits 0x7FEFFFFFFFFFFFFF, []⟩).value = .nan ∧
    (minimum ⟨.zero false, []⟩ ⟨.zero true, []⟩).value = .zero true ∧
    (minimum ⟨.one, []⟩ ⟨.ofBits 0x3FE0000000000000, []⟩).value.rational =
      .ok (Exact.min 1 (1 / 2)) := by
  obtain ⟨-, -, -, hnan, hzero, habsorb, hexact⟩ := extrema_form_lattice
  exact ⟨(habsorb ⟨.zero true, []⟩ ⟨.infinity true, []⟩ (by decide) (by decide)).1,
    (hnan ⟨.ofBits 0xFFF8000000000000, []⟩ ⟨.ofBits 0x7FEFFFFFFFFFFFFF, []⟩
      (Or.inl (by decide))).2,
    (hzero ⟨.zero true, []⟩ ⟨.zero false, []⟩ rfl rfl).2.1,
    (hexact ⟨.one, []⟩ ⟨.ofBits 0x3FE0000000000000, []⟩ 1 (1 / 2) (by decide +kernel)
      (by decide +kernel)).1⟩

end Shadow

end Roundoff
