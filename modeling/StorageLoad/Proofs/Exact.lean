import Mathlib.Data.Rat.Floor
import StorageLoad.Fault
import StorageLoad.Proofs.Double.Value

/-!
Reckoning in exact rationals: a quantity is the number that it stands for, what is not below zero
is rounded down to its floor, and rounding gives the nearest natural number.
-/

namespace StorageLoad

section Steps

variable {ε α β : Type}

theorem ok_bind (a : α) (next : α → Except ε β) : Except.ok a >>= next = next a :=
  rfl

theorem lift_ok (a : α) : (liftM (Except.ok a : Except NumberFault α) : Outcome α) = .ok a :=
  rfl

theorem mapM_eq_ok {f : α → Except ε β} {g : α → β} {as : List α}
    (h : ∀ a ∈ as, f a = .ok (g a)) :
    as.mapM f = .ok (as.map g) := by
  induction as with
  | nil => rfl
  | cons a as ih =>
      obtain ⟨ha, has⟩ := List.forall_mem_cons.mp h
      rw [List.mapM_cons, ha, ih has]
      rfl

end Steps

namespace Exact

theorem zero_eq : (0.0 : ℚ) = 0 := by
  norm_num

theorem one_eq : (1.0 : ℚ) = 1 := by
  norm_num

theorem hundred_eq : (100.0 : ℚ) = 100 := by
  norm_num

end Exact

namespace Quantity

/-- The number that a quantity stands for. -/
def value : Quantity ℚ → ℚ
  | whole n => n
  | real x => x

variable {q : Quantity ℚ}

theorem isNegative_iff : q.isNegative ↔ q.value < 0 := by
  cases q with
  | whole n => simp [isNegative, value]
  | real x => rw [isNegative, decide_eq_true_iff, Exact.zero_eq, value]

theorem isPositive_iff : q.isPositive ↔ 0 < q.value := by
  cases q with
  | whole n => simp [isPositive, value]
  | real x => rw [isPositive, decide_eq_true_iff, Exact.zero_eq, value]

theorem isZero_iff : q.isZero ↔ q.value = 0 := by
  cases q with
  | whole n => simp [isZero, value]
  | real x => rw [isZero, decide_eq_true_iff, Exact.zero_eq, value, le_antisymm_iff]

end Quantity

namespace Exact

open Double

variable {x : ℚ}

theorem truncate_eq (h : 0 ≤ x) : Reckoning.truncate x = .ok ⌊x⌋ := by
  have hnum : 0 ≤ x.num := Rat.num_nonneg.mpr h
  have hfloor : ⌊x⌋ = x.num / x.den := Rat.floor_def x
  rw [hfloor, ← Int.tdiv_eq_ediv_of_nonneg hnum]
  rfl

theorem exists_round (h : 0 ≤ x) : ∃ n : Nat, Reckoning.round x = .ok (n : Int) ∧
    IsNearest x n := by
  have hnum : 0 ≤ x.num := Rat.num_nonneg.mpr h
  refine ⟨Rounding.halfEven x.num.natAbs x.den, ?_, ?_⟩
  · change Except.ok (Rounding.halfEvenInt x.num x.den) = _
    rw [Rounding.halfEvenInt, if_neg (Int.not_lt.mpr hnum)]
  · have hquotient : (x.num.natAbs : ℚ) / x.den = x := by
      rw [Nat.cast_natAbs, abs_of_nonneg hnum, Rat.num_div_den]
    have hnearest := isNearest_halfEven x.num.natAbs x.den_pos
    rwa [hquotient] at hnearest

end Exact

end StorageLoad
