import Roundoff.Proofs.Binary64.Ulp
import Roundoff.Proofs.Exact.Calculation

/-! # Places number the values

The number of a value, with the infinities below and above all rationals, is a strictly increasing
function of its place (`numberAt_strictMonoOn`), and every place up to that of an infinity is taken.
So the values are ordered as their places, the two zeros being one number, and the distance of two
values counts the numbers that are passed on the way from one to the other (`encard_passed`).
-/
namespace Roundoff.Binary64

variable {x y : Binary64}

/-! ## Numbers of the extended line -/

/-- **The number of a value on the extended line**: its rational, or the lower or the upper end of
the line. -/
def extended (x : Binary64) : WithBot (WithTop ℚ) :=
  match x.number? with
  | some r => ((r : WithTop ℚ) : WithBot (WithTop ℚ))
  | none => if x.negative then ⊥ else ⊤

/-- The number at a place. -/
def numberAt (o : ℤ) : WithBot (WithTop ℚ) :=
  if o ≤ -infinityMagnitude then ⊥
  else if infinityMagnitude ≤ o then ⊤
  else (((scaledAt o / unitDenominator : ℚ) : WithTop ℚ) : WithBot (WithTop ℚ))

theorem extended_of_isFinite (hx : x.isFinite = true) :
    x.extended = ((x.toRat : WithTop ℚ) : WithBot (WithTop ℚ)) := by
  have hnumber : x.number? = some x.toRat := by
    rw [← rational_toOption, rational_eq_ok_iff.2 ⟨hx, rfl⟩]
    rfl
  rw [extended, hnumber]

theorem extended_of_isInfinite (hx : x.isInfinite = true) :
    x.extended = if x.negative then ⊥ else ⊤ := by
  have hnumber : x.number? = none := by
    have hmagnitude : x.magnitude = infinityMagnitude := of_decide_eq_true hx
    rw [number?, hmagnitude]
    rfl
  rw [extended, hnumber]

theorem abs_ordinal (x : Binary64) : |x.ordinal| = x.magnitude := by
  rw [Int.abs_eq_natAbs, natAbs_ordinal]

theorem abs_ordinal_le (hx : x.isNaN = false) : |x.ordinal| ≤ infinityMagnitude := by
  rw [abs_ordinal, Int.ofNat_le]
  exact not_lt.1 (of_decide_eq_false hx)

/-- **The number of a value is the one at its place.** -/
theorem extended_eq (hx : x.isNaN = false) : x.extended = numberAt x.ordinal := by
  have hpositive : 0 < infinityMagnitude := by decide
  have habs := abs_ordinal x
  cases hinfinite : x.isInfinite with
  | false =>
    have hfinite := isFinite_of_not hx hinfinite
    have hlt : x.magnitude < infinityMagnitude := of_decide_eq_true hfinite
    obtain ⟨hlow, hhigh⟩ := abs_lt.1 (habs.trans_lt (Int.ofNat_lt.2 hlt))
    rw [extended_of_isFinite hfinite, numberAt, if_neg (not_le.2 hlow), if_neg (not_le.2 hhigh),
      toRat_eq]
  | true =>
    have hmagnitude : x.magnitude = infinityMagnitude := of_decide_eq_true hinfinite
    rw [extended_of_isInfinite hinfinite, numberAt, ordinal, hmagnitude]
    cases x.negative with
    | true => rw [if_pos rfl, if_pos rfl, if_pos le_rfl]
    | false => rw [if_neg Bool.false_ne_true, if_neg Bool.false_ne_true, if_neg (by omega),
        if_pos le_rfl]

/-- **The places in use**, from minus infinity to infinity. -/
def places : Set ℤ := Set.Icc (-infinityMagnitude) infinityMagnitude

theorem mem_places_iff {o : ℤ} : o ∈ places ↔ |o| ≤ infinityMagnitude :=
  abs_le.symm

theorem ordinal_mem_places (hx : x.isNaN = false) : x.ordinal ∈ places :=
  mem_places_iff.2 (abs_ordinal_le hx)

/-- **Further up on the line the numbers are greater.** -/
theorem numberAt_strictMonoOn : StrictMonoOn numberAt places := by
  have hpositive : 0 < infinityMagnitude := by decide
  rintro o ⟨hlow, -⟩ p ⟨-, hhigh⟩ hlt
  rw [numberAt, numberAt, if_neg (by omega : ¬ p ≤ -infinityMagnitude),
    if_neg (by omega : ¬ infinityMagnitude ≤ o)]
  by_cases ho : o ≤ -infinityMagnitude
  · rw [if_pos ho]
    split
    · exact WithBot.bot_lt_coe _
    · exact WithBot.bot_lt_coe _
  · rw [if_neg ho]
    split
    · exact WithBot.coe_lt_coe.2 (WithTop.coe_lt_top _)
    · rw [WithBot.coe_lt_coe, WithTop.coe_lt_coe, div_lt_div_iff_of_pos_right unitDenominator_pos,
        Int.cast_lt]
      exact scaledAt_strictMono hlt

/-- Every place in use is that of a value. -/
theorem exists_ordinal_eq {o : ℤ} (h : o ∈ places) :
    ∃ x : Binary64, x.isNaN = false ∧ x.ordinal = o := by
  have hle : o.natAbs ≤ infinityMagnitude := by
    obtain ⟨hlow, hhigh⟩ := h
    omega
  obtain ⟨x, rfl⟩ := exists_ordinal (hle.trans_lt (by decide))
  rw [natAbs_ordinal] at hle
  exact ⟨x, decide_eq_false (not_lt.2 hle), rfl⟩

/-! ## Order -/

theorem extended_lt_iff (hx : x.isNaN = false) (hy : y.isNaN = false) :
    x.extended < y.extended ↔ x.ordinal < y.ordinal := by
  rw [extended_eq hx, extended_eq hy]
  exact numberAt_strictMonoOn.lt_iff_lt (ordinal_mem_places hx) (ordinal_mem_places hy)

theorem extended_le_iff (hx : x.isNaN = false) (hy : y.isNaN = false) :
    x.extended ≤ y.extended ↔ x.ordinal ≤ y.ordinal := by
  rw [← not_lt, ← not_lt, extended_lt_iff hy hx]

theorem extended_eq_iff (hx : x.isNaN = false) (hy : y.isNaN = false) :
    x.extended = y.extended ↔ x.ordinal = y.ordinal := by
  rw [le_antisymm_iff, le_antisymm_iff, extended_le_iff hx hy, extended_le_iff hy hx]

/-! ## Distance -/

/-- **The numbers passed** between two values: those of values above the lower and up to the higher
of the two. -/
def passed (x y : Binary64) : Set (WithBot (WithTop ℚ)) :=
  {v ∈ Set.uIoc x.extended y.extended | ∃ z : Binary64, z.isNaN = false ∧ z.extended = v}

theorem passed_eq_image (hx : x.isNaN = false) (hy : y.isNaN = false) :
    passed x y = numberAt '' Set.uIoc x.ordinal y.ordinal := by
  have hiff : ∀ {z : Binary64}, z.isNaN = false →
      (z.extended ∈ Set.uIoc x.extended y.extended ↔ z.ordinal ∈ Set.uIoc x.ordinal y.ordinal) := by
    intro z hz
    rw [Set.mem_uIoc, Set.mem_uIoc, extended_lt_iff hx hz, extended_lt_iff hy hz,
      extended_le_iff hz hy, extended_le_iff hz hx]
  ext v
  constructor
  · rintro ⟨hv, z, hz, rfl⟩
    exact ⟨z.ordinal, (hiff hz).1 hv, (extended_eq hz).symm⟩
  · rintro ⟨o, ho, rfl⟩
    have hplace : o ∈ places := by
      obtain ⟨hlowx, hhighx⟩ := ordinal_mem_places hx
      obtain ⟨hlowy, hhighy⟩ := ordinal_mem_places hy
      rw [Set.mem_uIoc] at ho
      constructor <;> omega
    obtain ⟨z, hz, rfl⟩ := exists_ordinal_eq hplace
    rw [← extended_eq hz]
    exact ⟨(hiff hz).2 ho, z, hz, rfl⟩

/-- **The distance of two places counts the numbers passed between them.** -/
theorem encard_passed (hx : x.isNaN = false) (hy : y.isNaN = false) :
    (passed x y).encard = (x.ordinal - y.ordinal).natAbs := by
  have hsubset : Set.uIoc x.ordinal y.ordinal ⊆ places := by
    obtain ⟨hlowx, hhighx⟩ := ordinal_mem_places hx
    obtain ⟨hlowy, hhighy⟩ := ordinal_mem_places hy
    intro o ho
    rw [Set.mem_uIoc] at ho
    constructor <;> omega
  rw [passed_eq_image hx hy, (numberAt_strictMonoOn.injOn.mono hsubset).encard_image, Set.uIoc,
    ← Finset.coe_Ioc, Set.encard_coe_eq_coe_finsetCard, Int.card_Ioc]
  congr 1
  omega

theorem ulpDistance_eq_ok (hx : x.isNaN = false) (hy : y.isNaN = false) :
    x.ulpDistance y = .ok (x.ordinal - y.ordinal).natAbs := by
  rw [ulpDistance, place_eq_ok hx, place_eq_ok hy]
  rfl

/-! ## Places -/

theorem place_eq_ok_iff {o : ℤ} : x.place = .ok o ↔ x.isNaN = false ∧ x.ordinal = o := by
  rw [place]
  cases x.isNaN <;> simp

theorem compare?_eq_lt_iff (hx : x.isNaN = false) (hy : y.isNaN = false) :
    x.compare? y = some .lt ↔ x.ordinal < y.ordinal := by
  rw [compare?_of_numbers hx hy, Option.some_inj, compare_lt_iff_lt]

/-- **Places number the values.**  Every value but a NaN has a place, up to those of the infinities,
and every such place is that of a value.  Values are in the order of their places, as compared and
as numbers of the extended line, and they are equal if they share a place.  The distance of two
values is the same both ways and counts the numbers passed between them; a detour is never shorter,
and a value on the way is no detour.  The value in the place after a finite one that is not negative
is greater by a unit in the last place. -/
theorem place_numbers_values :
    (∀ x : Binary64, x.isNaN = false → ∃ o, x.place = .ok o ∧ |o| ≤ infinityMagnitude) ∧
    (∀ o : ℤ, |o| ≤ infinityMagnitude → ∃ x : Binary64, x.place = .ok o) ∧
    (∀ (x y : Binary64) (m n : ℤ), x.place = .ok m → y.place = .ok n →
      (x.compare? y = some .lt ↔ x.extended < y.extended) ∧ (x.extended < y.extended ↔ m < n) ∧
      (x.numEq y = true ↔ x.extended = y.extended) ∧ (x.extended = y.extended ↔ m = n)) ∧
    (∀ x y : Binary64, x.isNaN = false → y.isNaN = false →
      ∃ n, x.ulpDistance y = .ok n ∧ y.ulpDistance x = .ok n ∧ (passed x y).encard = n) ∧
    (∀ x y z : Binary64, x.isNaN = false → y.isNaN = false → z.isNaN = false →
      ∃ l m n, x.ulpDistance y = .ok l ∧ y.ulpDistance z = .ok m ∧ x.ulpDistance z = .ok n ∧
        n ≤ l + m ∧ (x.extended ≤ y.extended → y.extended ≤ z.extended → n = l + m)) ∧
    ∀ (x y : Binary64) (o : ℤ) (p q : ℚ), x.place = .ok o → y.place = .ok (o + 1) →
      x.rational = .ok p → y.rational = .ok q → 0 ≤ p →
        ∃ u, x.ulp.rational = .ok u ∧ q = p + u := by
  refine ⟨?_, ?_, ?_, ?_, ?_, ?_⟩
  · intro x hx
    exact ⟨x.ordinal, place_eq_ok hx, abs_ordinal_le hx⟩
  · intro o ho
    obtain ⟨x, hx, rfl⟩ := exists_ordinal_eq (mem_places_iff.2 ho)
    exact ⟨x, place_eq_ok hx⟩
  · intro x y m n hm hn
    obtain ⟨hx, rfl⟩ := place_eq_ok_iff.1 hm
    obtain ⟨hy, rfl⟩ := place_eq_ok_iff.1 hn
    have hless := extended_lt_iff hx hy
    have hequal := extended_eq_iff hx hy
    exact ⟨(compare?_eq_lt_iff hx hy).trans hless.symm, hless, (numEq_iff hx hy).trans hequal.symm,
      hequal⟩
  · intro x y hx hy
    refine ⟨_, ulpDistance_eq_ok hx hy, ?_, encard_passed hx hy⟩
    rw [ulpDistance_eq_ok hy hx, ← Int.natAbs_neg, neg_sub]
  · intro x y z hx hy hz
    refine ⟨_, _, _, ulpDistance_eq_ok hx hy, ulpDistance_eq_ok hy hz, ulpDistance_eq_ok hx hz,
      by omega, ?_⟩
    rw [extended_le_iff hx hy, extended_le_iff hy hz]
    omega
  · intro x y o p q hx hy hp hq hnonneg
    obtain ⟨-, rfl⟩ := place_eq_ok_iff.1 hx
    obtain ⟨-, hnext⟩ := place_eq_ok_iff.1 hy
    obtain ⟨hfinite, rfl⟩ := rational_eq_ok_iff.1 hp
    obtain ⟨-, rfl⟩ := rational_eq_ok_iff.1 hq
    exact ⟨_, rational_eq_ok_iff.2 ⟨(ulp_spec hfinite).1, rfl⟩,
      toRat_of_ordinal_succ hfinite hnonneg hnext⟩

/-- From minus infinity to the largest subnormal, and from there to the least normal value. -/
theorem place_numbers_values_subnormal :
    (∃ n, (infinity true).ulpDistance (ofBits 0x000FFFFFFFFFFFFF) = .ok n ∧
      (passed (infinity true) (ofBits 0x000FFFFFFFFFFFFF)).encard = n) ∧
    ((infinity true).extended < (ofBits 0x000FFFFFFFFFFFFF).extended ↔
      (-0x7FF0000000000000 : ℤ) < 0x000FFFFFFFFFFFFF) ∧
    ∃ u, (ofBits 0x000FFFFFFFFFFFFF).ulp.rational = .ok u ∧
      (ofBits 0x0010000000000000).toRat = (ofBits 0x000FFFFFFFFFFFFF).toRat + u := by
  obtain ⟨-, -, horder, hcount, -, hnext⟩ := place_numbers_values
  obtain ⟨n, hn, -, hpassed⟩ :=
    hcount (infinity true) (ofBits 0x000FFFFFFFFFFFFF) (by decide) (by decide)
  refine ⟨⟨n, hn, hpassed⟩, (horder _ _ _ _ (by decide) (by decide)).2.1, ?_⟩
  exact hnext (ofBits 0x000FFFFFFFFFFFFF) (ofBits 0x0010000000000000) 0x000FFFFFFFFFFFFF _ _
    (by decide) (by decide) (rational_eq_ok_iff.2 ⟨by decide, rfl⟩)
    (rational_eq_ok_iff.2 ⟨by decide, rfl⟩) (toRat_nonneg (by decide))

end Roundoff.Binary64
