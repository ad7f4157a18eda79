import Roundoff.Proofs.Literal.Value
import Roundoff.Proofs.Token.Words

/-! # The meaning of repeating digits

A literal with a group of repeating digits stands for the limit of the literals in which these
digits are written out more and more often: what is missing after `k` times is the worth of the
group itself, moved by `k` periods (`magnitude_sub_writtenOut`).  Digits written out in front of the
group, or several times within it, change nothing (`magnitude_unrolled`).  The literals are told
apart by their texts, which are the same but for the group (`Frame`).
-/
namespace Roundoff.Literal

open Text (isAsciiDigit isBlank trim)
open Numeral (Digits positional)

/-! ## Digits written several times -/

/-- Some digits, written `k` times. -/
def copies (ds : List Char) : ℕ → List Char
  | 0 => []
  | k + 1 => ds ++ copies ds k

theorem length_copies (ds : List Char) (k : ℕ) : (copies ds k).length = k * ds.length := by
  induction k with
  | zero => rw [copies, List.length_nil, Nat.zero_mul]
  | succ k ih => rw [copies, List.length_append, ih, Nat.succ_mul, Nat.add_comm]

theorem isAsciiDigit_copies {ds : List Char} (h : ∀ c ∈ ds, isAsciiDigit c = true) (k : ℕ) :
    ∀ c ∈ copies ds k, isAsciiDigit c = true := by
  induction k with
  | zero => exact nofun
  | succ k ih => exact List.forall_mem_append.2 ⟨h, ih⟩

/-- **The geometric series of a period.** -/
theorem positional_copies (ds : List Char) (k : ℕ) :
    (positional (copies ds k) : ℚ) * (10 ^ ds.length - 1) =
      positional ds * (10 ^ (k * ds.length) - 1) := by
  induction k with
  | zero => simp [copies, positional]
  | succ k ih =>
    rw [copies, Numeral.positional_append, length_copies]
    push_cast
    rw [add_mul, ih, Nat.succ_mul, pow_add]
    ring

/-! ## The absolute value -/

/-- The absolute value of the number of a literal. -/
def magnitude (l : Literal) : ℚ :=
  ((positional (l.integer ++ l.fixed) : ℚ) / 10 ^ l.fixed.length
    + (positional l.repeating : ℚ) / (10 ^ l.fixed.length * (10 ^ l.repeating.length - 1)))
    * (10 : ℚ) ^ l.exponent

theorem worth_eq (l : Literal) : l.worth = (if l.negative then -1 else 1) * l.magnitude := by
  rw [worth, magnitude, mul_assoc]

theorem one_le_pow_length (ds : List Char) : (1 : ℚ) ≤ 10 ^ ds.length :=
  one_le_pow₀ (by norm_num)

theorem abs_worth (l : Literal) : |l.worth| = l.magnitude := by
  have hcycle : (0 : ℚ) ≤ 10 ^ l.repeating.length - 1 := sub_nonneg.2 (one_le_pow_length _)
  have hnonneg : 0 ≤ l.magnitude := by
    rw [magnitude]
    positivity
  rw [worth_eq, abs_mul, abs_of_nonneg hnonneg]
  cases l.negative <;> simp

theorem worth_eq_abs (l : Literal) : l.worth = (if l.negative then -1 else 1) * |l.worth| := by
  rw [abs_worth]
  exact worth_eq l

/-- The literal with its repeating digits written out `k` times and no group. -/
def writtenOut (l : Literal) (k : ℕ) : Literal :=
  { l with fixed := l.fixed ++ copies l.repeating k, repeating := [] }

/-- The literal with its repeating digits written `k` times in front of the group, and `j` times
within it. -/
def unrolled (l : Literal) (k j : ℕ) : Literal :=
  { l with fixed := l.fixed ++ copies l.repeating k, repeating := copies l.repeating j }

section
variable {l : Literal}

theorem magnitude_of_plain (h : l.repeating = []) :
    l.magnitude =
      positional (l.integer ++ l.fixed) / 10 ^ l.fixed.length * (10 : ℚ) ^ l.exponent := by
  rw [magnitude, h]
  simp [positional]

theorem cycle_pos (h : l.repeating ≠ []) : (0 : ℚ) < 10 ^ l.repeating.length - 1 := by
  have hone : (1 : ℚ) < 10 ^ l.repeating.length :=
    one_lt_pow₀ (by norm_num) (by simpa using h)
  linarith

/-- The digits of the group, some of them written out in front of it. -/
theorem positional_writtenOut (l : Literal) (k : ℕ) :
    (positional (l.integer ++ (l.fixed ++ copies l.repeating k)) : ℚ) =
      positional (l.integer ++ l.fixed) * 10 ^ (k * l.repeating.length)
        + positional (copies l.repeating k) := by
  rw [← List.append_assoc, Numeral.positional_append, length_copies]
  push_cast
  rfl

theorem positional_copies_eq (h : l.repeating ≠ []) (k : ℕ) :
    (positional (copies l.repeating k) : ℚ) = positional l.repeating
      * (10 ^ (k * l.repeating.length) - 1) / (10 ^ l.repeating.length - 1) :=
  eq_div_of_mul_eq (cycle_pos h).ne' (positional_copies l.repeating k)

/-- **What is missing when the repeating digits are written out `k` times**: the group, moved by `k`
periods. -/
theorem magnitude_sub_writtenOut (h : l.repeating ≠ []) (k : ℕ) :
    l.magnitude - (l.writtenOut k).magnitude =
      positional l.repeating / (10 ^ l.repeating.length - 1)
        * (10 : ℚ) ^ (l.exponent - l.fixed.length - (k * l.repeating.length : ℕ) : ℤ) := by
  have hcycle := cycle_pos h
  rw [magnitude_of_plain (l := l.writtenOut k) rfl, magnitude, writtenOut]
  dsimp only
  rw [positional_writtenOut, positional_copies_eq h, List.length_append, length_copies, pow_add,
    zpow_sub₀ (by norm_num), zpow_sub₀ (by norm_num), zpow_natCast, zpow_natCast]
  generalize (10 : ℚ) ^ l.repeating.length - 1 = c at hcycle
  field_simp
  ring

/-- **Digits written out in front of the group or within it change nothing.** -/
theorem magnitude_unrolled (h : l.repeating ≠ []) (k : ℕ) {j : ℕ} (hj : 0 < j) :
    (l.unrolled k j).magnitude = l.magnitude := by
  have hcycle := cycle_pos h
  have hperiods : (0 : ℚ) < 10 ^ (j * l.repeating.length) - 1 := by
    have hone : (1 : ℚ) < 10 ^ (j * l.repeating.length) :=
      one_lt_pow₀ (by norm_num) (Nat.mul_pos hj (List.length_pos_iff.2 h)).ne'
    linarith
  rw [magnitude, magnitude, unrolled]
  dsimp only
  rw [positional_writtenOut, positional_copies_eq h, positional_copies_eq h, List.length_append,
    length_copies, length_copies, pow_add]
  generalize (10 : ℚ) ^ l.repeating.length - 1 = c at hcycle
  generalize (10 : ℚ) ^ (j * l.repeating.length) - 1 = d at hperiods
  field_simp
  ring

/-- The literals with the repeating digits written out come as near as one likes, from below. -/
theorem magnitude_sub_writtenOut_le (h : l.repeating ≠ [])
    (hdigits : ∀ c ∈ l.repeating, isAsciiDigit c = true) (k : ℕ) :
    0 ≤ l.magnitude - (l.writtenOut k).magnitude ∧
      l.magnitude - (l.writtenOut k).magnitude ≤
        (10 : ℚ) ^ (l.exponent - l.fixed.length - (k * l.repeating.length : ℕ) : ℤ) := by
  have hcycle := cycle_pos h
  have hle : (positional l.repeating : ℚ) ≤ 10 ^ l.repeating.length - 1 := by
    have hlt : (positional l.repeating : ℚ) + 1 ≤ 10 ^ l.repeating.length := by
      exact_mod_cast Numeral.positional_lt hdigits
    linarith
  rw [magnitude_sub_writtenOut h]
  constructor
  · positivity
  · refine mul_le_of_le_one_left (by positivity) ?_
    exact (div_le_one hcycle).2 hle

end

/-! ## Texts -/

/-- What stands around the group of repeating digits in the text of a literal: what is in front of
it, how it is closed, and what follows. -/
structure Frame where
  before : List Char
  closing : List Char
  after : List Char
  closing_eq : closing = [')'] ∨ closing = ['.', '.', '.', ')']

namespace Frame

/-- The text with some digits written in front of a group of others. -/
def grouped (t : Frame) (written repeating : List Char) : String :=
  String.ofList (t.before ++ (written ++ '(' :: (repeating ++ (t.closing ++ t.after))))

/-- The text with some digits written in the place of the group. -/
def plain (t : Frame) (written : List Char) : String :=
  String.ofList (t.before ++ (written ++ t.after))

end Frame

/-- A spelling with blanks around it is trimmed to itself. -/
theorem Spells.trim_eq {u v cs : List Char} {l : Literal} (h : Spells cs l)
    (hu : ∀ c ∈ u, isBlank c = true) (hv : ∀ c ∈ v, isBlank c = true) :
    Spells (trim (u ++ (cs ++ v))) l := by
  rw [trim, Text.trimAll_append hu hv (fun c hc => h.not_blank c (List.mem_of_mem_head? hc))
    fun c hc => h.not_blank c (List.mem_of_getLast? hc)]
  exact h

/-- Digits written behind a point. -/
theorem mantissaText_written {m i f ds : List Char} (h : MantissaText m i f true)
    (hds : ∀ c ∈ ds, isAsciiDigit c = true) : MantissaText (m ++ ds) i (f ++ ds) true := by
  cases h with
  | pointed hi hf =>
    rw [List.append_assoc, List.cons_append]
    exact .pointed hi (List.forall_mem_append.2 ⟨hf, hds⟩)
  | leading hf =>
    exact .leading ⟨List.append_ne_nil_of_left_ne_nil hf.ne_nil _,
      List.forall_mem_append.2 ⟨hf.all, hds⟩⟩

/-- A group is closed in the same way around any digits. -/
theorem GroupText.exists_closing {g r : List Char} (h : GroupText g r) (hr : r ≠ []) :
    ∃ closing, (closing = [')'] ∨ closing = ['.', '.', '.', ')']) ∧ g = '(' :: (r ++ closing) ∧
      ∀ r', Digits r' → GroupText ('(' :: (r' ++ closing)) r' := by
  cases h with
  | none => exact absurd rfl hr
  | plain _ => exact ⟨_, Or.inl rfl, rfl, fun _ => .plain⟩
  | dotted _ => exact ⟨_, Or.inr rfl, rfl, fun _ => .dotted⟩

/-- **The text of a literal with a group**, and the texts that differ from it only in the group. -/
theorem exists_frame {text : String} {l : Literal} (h : Spells (trim text.toList) l)
    (hr : l.repeating ≠ []) : ∃ t : Frame, text = t.grouped [] l.repeating ∧
      ∀ ds, (∀ c ∈ ds, isAsciiDigit c = true) →
        Spells (trim (t.plain ds).toList) { l with fixed := l.fixed ++ ds, repeating := [] } ∧
        ∀ r, Digits r → Spells (trim (t.grouped ds r).toList)
          { l with fixed := l.fixed ++ ds, repeating := r } := by
  obtain ⟨u, v, htext, hu, hv⟩ := Text.exists_eq_trim_append text.toList
  generalize trim text.toList = cs at h htext
  obtain @⟨sgn, m, g, e, i, f, r, negative, point, x, hsgn, hm, hg, hpoint, he⟩ := h
  obtain ⟨closing, hclosing, rfl, hgroup⟩ := hg.exists_closing hr
  have hpointed : point = true := by
    by_contra hnot
    exact List.cons_ne_nil _ _ (hpoint (Bool.eq_false_of_not_eq_true hnot))
  rw [hpointed] at hm
  refine ⟨⟨u ++ (sgn ++ m), closing, e ++ v, hclosing⟩, ?_, fun ds hds => ⟨?_, fun r' hr' => ?_⟩⟩
  · rw [← String.ofList_toList (s := text), htext, Frame.grouped]
    simp
  · have hspells : Spells (sgn ++ ((m ++ ds) ++ ([] ++ e))) ⟨negative, i, f ++ ds, [], x⟩ :=
      .mk hsgn (mantissaText_written hm hds) .none (fun _ => rfl) he
    rw [Frame.plain, String.toList_ofList]
    simpa using hspells.trim_eq hu hv
  · have hspells : Spells (sgn ++ ((m ++ ds) ++ (('(' :: (r' ++ closing)) ++ e)))
        ⟨negative, i, f ++ ds, r', x⟩ :=
      .mk hsgn (mantissaText_written hm hds) (hgroup r' hr') nofun he
    rw [Frame.grouped, String.toList_ofList]
    simpa using hspells.trim_eq hu hv

theorem Spells.parse_eq {text : String} {l : Literal} (h : Spells (trim text.toList) l) :
    parse text = .ok l.worth :=
  parse_eq_ok_iff.2 (.decimal h)

/-- **The number of a decimal literal.**  Without repeating digits it is the integer that the digits
spell, moved by the fixed digits and the exponent.  With repeating digits it is the limit of the
numbers of the texts in which these digits are written out `k` times in the place of the group: each
of them is a terminating literal of the same sign whose number falls short of it, by at most a unit
of its last digit.  And digits written out in front of the group, or several times within it, change
nothing. -/
theorem parse_repeating {text : String} {l : Literal} (h : split text = .ok l) :
    ∃ x, parse text = .ok x ∧ x = (if l.negative then -1 else 1) * |x| ∧
      (l.repeating = [] → |x| =
        positional (l.integer ++ l.fixed) / 10 ^ l.fixed.length * (10 : ℚ) ^ l.exponent) ∧
      (l.repeating ≠ [] → ∃ t : Frame, text = t.grouped [] l.repeating ∧
        (∀ k, ∃ v, split (t.plain (copies l.repeating k)) = .ok (l.writtenOut k) ∧
          parse (t.plain (copies l.repeating k)) = .ok v ∧
          v = (if l.negative then -1 else 1) * |v| ∧ 0 ≤ |x| - |v| ∧ |x| - |v| ≤
            (10 : ℚ) ^ (l.exponent - l.fixed.length - (k * l.repeating.length : ℕ) : ℤ)) ∧
        ∀ k j, parse (t.grouped (copies l.repeating k) (copies l.repeating (j + 1))) = .ok x) := by
  have hspells := spells_of_split h
  refine ⟨l.worth, hspells.parse_eq, worth_eq_abs l, fun hplain => ?_, fun hgroup => ?_⟩
  · rw [abs_worth, magnitude_of_plain hplain]
  · obtain ⟨t, htext, hframe⟩ := exists_frame hspells hgroup
    have hdigits := hspells.repeating hgroup
    refine ⟨t, htext, fun k => ?_, fun k j => ?_⟩
    · have hwritten : Spells (trim (t.plain (copies l.repeating k)).toList) (l.writtenOut k) :=
        (hframe _ (isAsciiDigit_copies hdigits.all k)).1
      refine ⟨_, split_of_spells hwritten, hwritten.parse_eq, worth_eq_abs (l.writtenOut k), ?_⟩
      rw [abs_worth, abs_worth]
      exact magnitude_sub_writtenOut_le hgroup hdigits.all k
    · have hcopies : Digits (copies l.repeating (j + 1)) :=
        ⟨List.append_ne_nil_of_left_ne_nil hgroup _, isAsciiDigit_copies hdigits.all _⟩
      have hunrolled : Spells (trim (t.grouped (copies l.repeating k)
          (copies l.repeating (j + 1))).toList) (l.unrolled k (j + 1)) :=
        (hframe _ (isAsciiDigit_copies hdigits.all k)).2 _ hcopies
      have hsign : (l.unrolled k (j + 1)).negative = l.negative := rfl
      rw [hunrolled.parse_eq, worth_eq, worth_eq, magnitude_unrolled hgroup k (Nat.succ_pos j),
        hsign]

/-- Ten times a negative sixth. -/
theorem parse_repeating_sixth : split "-0.1(6)e1" = .ok ⟨true, ['0'], ['1'], ['6'], 1⟩ ∧
    ∃ x, parse "-0.1(6)e1" = .ok x ∧ ∃ t : Frame, "-0.1(6)e1" = t.grouped [] ['6'] ∧
      ∀ k j, parse (t.grouped (copies ['6'] k) (copies ['6'] (j + 1))) = .ok x := by
  have hsplit : split "-0.1(6)e1" = .ok ⟨true, ['0'], ['1'], ['6'], 1⟩ := by decide +kernel
  obtain ⟨x, hparse, -, -, hgroup⟩ := parse_repeating hsplit
  obtain ⟨t, htext, -, hcopies⟩ := hgroup (by decide)
  exact ⟨hsplit, x, hparse, t, htext, hcopies⟩

end Roundoff.Literal
