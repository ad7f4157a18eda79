import Roundoff.Proofs.Binary64.Text
import Roundoff.Proofs.Expansion.Agreement
import Roundoff.Session.Report

/-! # The digits that a session shows as correct

The text of a finite binary64 value is expanded to the digits asked for, and so is the exact value;
the digits on which they agree are set off from the rest.  This module says when all of these digits
are digits of the exact value, and shows that they need not be.
-/
namespace Roundoff.Session

open Expansion (ofRat rendering pointDigit Begins)

/-- A finite value has an expansion, that of a fraction over a power of ten. -/
theorem shadowExpansion_eq {v : Binary64} (hv : v.isFinite = true) (n : ℕ) :
    ∃ (y : ℚ) (c : ℤ) (m : ℕ), y = c / 10 ^ m ∧
      shadowExpansion v n = .ok (some (ofRat y n)) := by
  obtain ⟨l, hspell, hrepeating, -⟩ := Binary64.spells_text hv
  obtain ⟨c, m, hworth⟩ := Literal.exists_worth_eq hrepeating
  have hparse : Literal.parse v.text = .ok l.worth :=
    Literal.parse_eq_ok_iff.2 (.decimal hspell)
  have hbudget : ¬ ((n : ℤ) < 0) := Int.not_lt.2 (Int.natCast_nonneg n)
  refine ⟨l.worth, c, m, hworth, ?_⟩
  rw [shadowExpansion, hv, hparse]
  simp only [Bool.not_true, Bool.false_eq_true, if_false, Expansion.ofRatWithin, if_neg hbudget,
    Int.toNat_natCast]
  rfl

/-- **When the digits shown as correct are correct.**  Those up to the number of digits asked for
always begin the rendering of the exact value.  All of them do, unless the expansion of the exact
value was cut short, that of the binary64 value ended, and they agree as far as digits are known:
then zeros are shown for the digits of the exact value that are not known, and all of them do if
these digits are in fact zeros. -/
theorem correct_begins_iff (x : ℚ) (v : Binary64) (hv : v.isFinite = true) (n : ℕ) :
    ∃ approx, shadowExpansion v n = .ok (some approx) ∧
      Begins ((approx.splitCorrect (ofRat x n)).1.toList.take (rendering x n).length) x ∧
      (Begins (approx.splitCorrect (ofRat x n)).1.toList x ↔
        ((ofRat x n).truncated = true → approx.truncated = false →
          ∀ k, n ≤ k → (rendering x k).length < (approx.splitCorrect (ofRat x n)).1.length →
            pointDigit x k = 0)) := by
  obtain ⟨y, c, m, hy, hexpansion⟩ := shadowExpansion_eq hv n
  obtain ⟨m, hprefix, hlength⟩ := (Expansion.plain_ofRat hy n).splitCorrect_isPrefix x
  refine ⟨ofRat y n, hexpansion, ?_, ?_⟩
  · refine (Expansion.begins_iff ((List.take_prefix _ _).trans hprefix)).2 fun _ k hk hlt => ?_
    rw [List.length_take, Expansion.length_rendering, Expansion.length_rendering] at hlt
    omega
  · rw [Expansion.begins_iff hprefix, String.length_toList]
    refine ⟨fun h htruncated _ => h htruncated, fun h htruncated k hk hlt => ?_⟩
    cases hend : (ofRat y n).truncated with
    | false => exact h htruncated hend k hk hlt
    | true =>
      -- A truncated approximation shows no digit beyond those asked for.
      have hle := hlength hend
      rw [String.length_toList, Expansion.length_rendering] at hle
      rw [Expansion.length_rendering] at hlt
      omega

/-- One third, to sixty digits: its expansion has a period, so no digit of it is unknown. -/
theorem correct_begins_third : ∃ approx,
    shadowExpansion (Binary64.ofBits 0x3FD5555555555555) 60 = .ok (some approx) ∧
      Begins (approx.splitCorrect (ofRat (1 / 3) 60)).1.toList (1 / 3) := by
  obtain ⟨approx, hexpansion, -, hiff⟩ :=
    correct_begins_iff (1 / 3) (Binary64.ofBits 0x3FD5555555555555) (by decide +kernel) 60
  have hend : (ofRat (1 / 3) 60).truncated = false := by decide +kernel
  refine ⟨approx, hexpansion, hiff.2 fun htruncated => ?_⟩
  rw [hend] at htruncated
  cases htruncated

/-- One and a small excess, to fifteen digits, against the value one: thirty-two zeros are shown as
correct, but the twentieth digit of the exact value is not zero. -/
theorem correct_not_begins_excess :
    shadowExpansion .one 15 = .ok (some (ofRat 1 15)) ∧
      ((ofRat 1 15).splitCorrect
        (ofRat (100000000000000000001 / 100000000000000000000) 15)).1 =
          "1.00000000000000000000000000000000" ∧
      ¬ Begins ((ofRat 1 15).splitCorrect
        (ofRat (100000000000000000001 / 100000000000000000000) 15)).1.toList
          (100000000000000000001 / 100000000000000000000) := by
  have hshown : ((ofRat 1 15).splitCorrect
      (ofRat (100000000000000000001 / 100000000000000000000) 15)).1 =
        "1.00000000000000000000000000000000" := by decide +kernel
  have hplain : (ofRat 1 15).Plain 15 :=
    Expansion.plain_ofRat (c := 1) (m := 0) (by norm_num) 15
  obtain ⟨m, hprefix, -⟩ :=
    hplain.splitCorrect_isPrefix (100000000000000000001 / 100000000000000000000)
  refine ⟨by decide +kernel, hshown, fun hbegins => ?_⟩
  have hdigit := (Expansion.begins_iff hprefix).1 hbegins (by decide +kernel) 19 (by decide) (by
    rw [hshown, Expansion.length_rendering, Expansion.floor_abs]
    decide +kernel)
  rw [Expansion.pointDigit_eq] at hdigit
  revert hdigit
  decide +kernel

end Roundoff.Session
