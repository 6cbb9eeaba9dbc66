import StorageLoad.Proofs.Double.Value
import StorageLoad.Proofs.Options

/-!
What the readers of numbers accept.
-/

namespace StorageLoad

namespace Config

open Outcome

/-- A number that is read is finite, not below zero and not above its maximum. -/
structure IsPermitted (maximum : Option (Quantity Float)) (x : Float) : Prop where
  isFinite : Double.isFinite x
  isAmount : Double.IsAmount (Double.parts x)
  value_le : ∀ limit, maximum = some (.whole limit) → Double.value x ≤ limit

theorem of_number {name : String} {maximum : Option (Quantity Float)} {v : Value} {x : Float}
    (h : number name maximum v = .ok x) : v.toReal = .ok x ∧ IsPermitted maximum x := by
  have hbad {answer : Except NumberFault String} {next : String → OptionFault}
      (h : (do throw (.option (next (← answer))) : Outcome Float) = .ok x) : False := by
    obtain ⟨_, -, h⟩ := exists_of_bind h
    cases h
  unfold number at h
  split at h
  · exact (hbad h).elim
  · dsimp only at h
    split at h
    · split at h
      · exact (hbad h).elim
      · cases h
    · rename_i y hreal
      split at h
      · exact (hbad h).elim
      · rename_i hfinite
        split at h
        · exact (hbad h).elim
        · rename_i hsign
          have hfinite : Double.isFinite y := by simpa using hfinite
          have hamount := Double.isAmount_of_not_lt hfinite hsign
          split at h
          · obtain rfl := Except.ok.inj h
            exact ⟨hreal, hfinite, hamount, nofun⟩
          · split at h
            · exact (hbad h).elim
            · obtain rfl := Except.ok.inj h
              exact ⟨hreal, hfinite, hamount, nofun⟩
          · split at h
            · obtain ⟨_, -, h⟩ := exists_of_bind h
              exact (hbad h).elim
            · rename_i hexceeds
              obtain rfl := Except.ok.inj h
              refine ⟨hreal, hfinite, hamount, fun limit hlimit => ?_⟩
              obtain rfl := Quantity.whole.inj (Option.some.inj hlimit)
              exact Double.value_le_of_exceeds hfinite (Bool.eq_false_iff.mpr hexceeds)

end Config

end StorageLoad
