import Mathlib.Data.List.Nodup
import Mathlib.Order.Defs.LinearOrder
import StorageLoad.Text.Half

/-!
Texts in the order of their code points, in which a kept half stands where the half would.  It is
a linear order of texts, so that sorting by keys of which none occurs twice makes them ascend
(`ascending_mergeSort`).
-/

namespace StorageLoad.Text

theorem isHalf_iff (c : Char) :
    isHalf c ↔ halfShift + 0xD800 ≤ c.toNat ∧ c.toNat < halfShift + 0xE000 := by
  simp only [isHalf, isHalfCode, Bool.and_eq_true, decide_eq_true_eq]
  omega

theorem codeOf_injective : Function.Injective codeOf := by
  -- No character has the code point of a half, so a kept half and another character have
  -- different ones.
  have hplain : ∀ c : Char, ¬ (0xD800 ≤ c.toNat ∧ c.toNat < 0xE000) := by
    intro c hc
    rcases c.valid with h | h
    · exact absurd hc.1 (Nat.not_le.mpr h)
    · exact absurd hc.2 (Nat.not_lt.mpr (Nat.le_of_lt_succ (Nat.succ_lt_succ h.1)))
  intro c d h
  apply Char.toNat_inj.mp
  have hc := hplain c
  have hd := hplain d
  simp only [codeOf, isHalf_iff] at h
  split at h
  · split at h
    · omega
    · omega
  · split at h
    · omega
    · omega

theorem codes_injective : Function.Injective codes := by
  intro s t h
  exact String.toList_inj.mp (List.map_injective_iff.mpr codeOf_injective h)

theorem upTo_iff (s t : String) : upTo s t ↔ ¬ codes t < codes s := by
  rw [upTo, Bool.not_eq_true', decide_eq_false_iff_not]

theorem upTo_trans {s t u : String} (h : upTo s t) (h' : upTo t u) : upTo s u := by
  rw [upTo_iff, List.not_lt] at h h' ⊢
  exact List.le_trans h h'

theorem upTo_total (s t : String) : upTo s t || upTo t s := by
  simp only [Bool.or_eq_true, upTo_iff, List.not_lt]
  exact List.le_total (codes s) (codes t)

theorem lt_of_upTo {s t : String} (h : upTo s t) (hne : s ≠ t) : codes s < codes t := by
  rw [upTo_iff] at h
  by_contra hlt
  exact hne (codes_injective (Std.Trichotomous.trichotomous _ _ hlt h))

variable {α : Type} {key : α → String} {as : List α}

/-- Sorting by keys of which none occurs twice makes the keys ascend. -/
theorem ascending_mergeSort (h : (as.map key).Nodup) :
    ((as.mergeSort fun a b => upTo (key a) (key b)).map key).Pairwise fun k l =>
      codes k < codes l := by
  have hsorted : (as.mergeSort fun a b => upTo (key a) (key b)).Pairwise
      fun a b => upTo (key a) (key b) := by
    apply List.pairwise_mergeSort
    · intro a b c
      exact upTo_trans
    · intro a b
      exact upTo_total (key a) (key b)
  have hnodup :=
    ((List.mergeSort_perm as fun a b => upTo (key a) (key b)).map key).nodup_iff.mpr h
  refine List.pairwise_map.mpr ((hsorted.and (List.pairwise_map.mp hnodup)).imp ?_)
  rintro a b ⟨hle, hne⟩
  exact lt_of_upTo hle hne

end StorageLoad.Text
