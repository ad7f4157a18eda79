import Roundoff.Text.Blank
import Mathlib

/-! # Trimmed texts

A text is its trimmed form with what was cut off at both of its ends, and this form is determined by
where it starts and ends: at characters that are not cut off.
-/
namespace Roundoff.Text

variable {p : Char → Bool} {u v cs : List Char}

theorem dropWhile_append (hu : ∀ c ∈ u, p c = true) (hfirst : ∀ c ∈ cs.head?, p c = false) :
    (u ++ cs).dropWhile p = cs := by
  rw [List.dropWhile_append_of_pos hu]
  cases cs with
  | nil => rfl
  | cons c cs => exact List.dropWhile_cons_of_neg (by simp [hfirst c rfl])

/-- **A text between characters that are cut off is what trimming leaves.** -/
theorem trimAll_append (hu : ∀ c ∈ u, p c = true) (hv : ∀ c ∈ v, p c = true)
    (hfirst : ∀ c ∈ cs.head?, p c = false) (hlast : ∀ c ∈ cs.getLast?, p c = false) :
    trimAll p (u ++ (cs ++ v)) = cs := by
  have hreverse : ∀ c ∈ v.reverse, p c = true := fun c hc => hv c (List.mem_reverse.1 hc)
  have hend : ∀ c ∈ cs.reverse.head?, p c = false := by
    rwa [List.head?_reverse]
  by_cases hnil : cs = []
  · subst hnil
    rw [List.nil_append, trimAll, List.dropWhile_append_of_pos hu, List.dropWhile_eq_nil_iff.2 hv]
    rfl
  · have hstart : ∀ c ∈ (cs ++ v).head?, p c = false := by
      rwa [List.head?_append_of_ne_nil _ hnil]
    rw [trimAll, dropWhile_append hu hstart, List.reverse_append, dropWhile_append hreverse hend,
      List.reverse_reverse]

theorem trimAll_of_ends (hfirst : ∀ c ∈ cs.head?, p c = false)
    (hlast : ∀ c ∈ cs.getLast?, p c = false) : trimAll p cs = cs := by
  have htrim := trimAll_append (u := []) (v := []) nofun nofun hfirst hlast
  rwa [List.nil_append, List.append_nil] at htrim

theorem trimAll_eq_self (h : ∀ c ∈ cs, p c = false) : trimAll p cs = cs :=
  trimAll_of_ends (fun c hc => h c (List.mem_of_mem_head? hc))
    fun c hc => h c (List.mem_of_getLast? hc)

/-- A text is its trimmed form with blanks around it. -/
theorem exists_eq_trim_append (cs : List Char) :
    ∃ u v, cs = u ++ (trim cs ++ v) ∧ (∀ c ∈ u, isBlank c = true) ∧
      ∀ c ∈ v, isBlank c = true := by
  refine ⟨cs.takeWhile isBlank, ((cs.dropWhile isBlank).reverse.takeWhile isBlank).reverse, ?_,
    fun c hc => List.mem_takeWhile_imp hc, fun c hc => ?_⟩
  · rw [trim, trimAll, ← List.reverse_append, List.takeWhile_append_dropWhile,
      List.reverse_reverse, List.takeWhile_append_dropWhile]
  · exact List.mem_takeWhile_imp (List.mem_reverse.1 hc)

theorem getLast?_trim : ∀ c ∈ (trim cs).getLast?, isBlank c = false := by
  intro c hc
  rw [trim, trimAll, List.getLast?_reverse] at hc
  have hhead := List.head?_dropWhile_not isBlank (cs.dropWhile isBlank).reverse
  rw [Option.mem_def.1 hc] at hhead
  simpa using hhead

/-- Only blanks are cut off at the start, so the first character left is none. -/
theorem head?_trim : ∀ c ∈ (trim cs).head?, isBlank c = false := by
  intro c hc
  obtain ⟨rest, hrest⟩ := List.head?_eq_some_iff.1 (Option.mem_def.1 hc)
  -- What remains behind the first blanks starts as the trimmed form does.
  have hstart : (cs.dropWhile isBlank).head? = some c := by
    have hprefix : trim cs <+: cs.dropWhile isBlank := by
      rw [trim, trimAll, ← List.reverse_suffix, List.reverse_reverse]
      exact List.dropWhile_suffix _
    obtain ⟨after, hafter⟩ := hprefix
    rw [← hafter, hrest]
    rfl
  have hhead := List.head?_dropWhile_not isBlank cs
  rw [hstart] at hhead
  simpa using hhead

/-- A trimmed text neither starts nor ends with a blank. -/
theorem ends_of_trim_eq (h : trim cs = cs) :
    (∀ c ∈ cs.head?, isBlank c = false) ∧ ∀ c ∈ cs.getLast?, isBlank c = false := by
  rw [← h]
  exact ⟨head?_trim, getLast?_trim⟩

theorem trim_trim (cs : List Char) : trim (trim cs) = trim cs :=
  trimAll_of_ends head?_trim getLast?_trim

end Roundoff.Text
