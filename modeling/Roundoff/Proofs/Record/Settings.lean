import Roundoff.Proofs.Record.Conforming
import Roundoff.Record.Settings

/-! # The limits of settings

Whatever record settings are read from, their limits are positive, and the depth keeps its ceiling
(`withinBounds_of_settingsOf`).
-/
namespace Roundoff.Record

open Shape (FieldGives conformFields_cons_eq_ok_iff)

/-- What a limit is given as, or its default. -/
theorem integer_of_limit {given : List (String × Json)} {name : String} {default : ℕ}
    {atMost : Option ℤ} {v : Json} (hpos : 0 < default) (hmost : ∀ m ∈ atMost, (default : ℤ) ≤ m)
    (h : FieldGives given name (.integer { above := some 0, atMost }) (some (.nat default)) v) :
    ∃ i : ℤ, v = .int i ∧ 0 < i ∧ ∀ m ∈ atMost, i ≤ m := by
  rcases h with ⟨w, -, hw⟩ | ⟨-, hw⟩
  · cases Shape.conforms_of_conform hw with
    | @integer _ _ i _ hrange =>
      unfold IntRange.violation? at hrange
      split at hrange
      · cases hrange
      · rename_i habove
        split at hrange
        · cases hrange
        · rename_i hatMost
          refine ⟨i, rfl, by simpa using habove, fun m hm => ?_⟩
          rw [Option.mem_def.1 hm] at hatMost
          simpa using hatMost
  · cases hw
    exact ⟨default, rfl, Int.natCast_pos.2 hpos, hmost⟩

/-- **Settings that are read from a record have positive limits**, and a depth under its ceiling. -/
theorem withinBounds_of_settingsOf {symbols : SymbolTable} {v : Json} {s : Settings}
    (h : settingsOf symbols v = .ok s) : s.WithinBounds := by
  obtain ⟨r, hr, rfl⟩ := Shape.map_eq_ok_iff.1 h
  cases Shape.conforms_of_conform hr with
  | record hms =>
    simp only [limit, fixed, conformFields_cons_eq_ok_iff] at hms
    obtain ⟨-, _, -, ⟨-, _, -, ⟨_, _, hinput, ⟨_, _, hdepth, ⟨_, _, hnodes, ⟨_, _, hexponent,
      ⟨_, _, hliteral, ⟨_, _, hbits, -, rfl⟩, rfl⟩, rfl⟩, rfl⟩, rfl⟩, rfl⟩, rfl⟩, rfl⟩ := hms
    have hnone : ∀ {n : ℕ}, ∀ m ∈ (none : Option ℤ), (n : ℤ) ≤ m := fun _ hm => nomatch hm
    obtain ⟨_, rfl, hinput, -⟩ := integer_of_limit (by decide) hnone hinput
    obtain ⟨_, rfl, hdepth, hceiling⟩ := integer_of_limit (by decide) (by decide) hdepth
    obtain ⟨_, rfl, hnodes, -⟩ := integer_of_limit (by decide) hnone hnodes
    obtain ⟨_, rfl, hexponent, -⟩ := integer_of_limit (by decide) hnone hexponent
    obtain ⟨_, rfl, hliteral, -⟩ := integer_of_limit (by decide) hnone hliteral
    obtain ⟨_, rfl, hbits, -⟩ := integer_of_limit (by decide) hnone hbits
    exact {
      inputLength := Int.lt_toNat.2 hinput
      depth := Int.lt_toNat.2 hdepth
      depth_le := Int.toNat_le.2 (hceiling _ rfl)
      nodes := Int.lt_toNat.2 hnodes
      exponent := Int.lt_toNat.2 hexponent
      literalExponent := Int.lt_toNat.2 hliteral
      rationalBits := Int.lt_toNat.2 hbits }

end Roundoff.Record
