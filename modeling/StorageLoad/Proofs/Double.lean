import Mathlib.Data.Nat.Log
import StorageLoad.Numeric.Reckoning

/-!
Which integers and quotients of integers have a double: all those that are well below the largest
one (`exists_quotient`, `exists_ofInt`).
-/

namespace StorageLoad

theorem Rounding.halfEven_le {num den bound : Nat} (hden : 0 < den) (h : num ≤ bound * den) :
    halfEven num den ≤ bound := by
  have hdiv : num / den ≤ bound := Nat.div_le_of_le_mul (by rwa [Nat.mul_comm])
  rcases Nat.lt_or_eq_of_le hdiv with hlt | heq
  · exact Nat.le_trans (halfEven_le_succ_div num den) hlt
  · have hrest : num % den = 0 := by
      have hsplit := Nat.div_add_mod num den
      rw [heq, Nat.mul_comm] at hsplit
      omega
    rw [halfEven, hrest, heq]
    simp [hden]

namespace Double

theorem mul_two_pow_lt {num den a b : Nat} (hden : den ≠ 0) (h : num.log2 + a < b + den.log2) :
    num * 2 ^ a < 2 ^ b * den := by
  calc
    num * 2 ^ a < 2 ^ (num.log2 + 1) * 2 ^ a :=
        Nat.mul_lt_mul_of_pos_right Nat.lt_log2_self (Nat.two_pow_pos a)
    _ = 2 ^ (num.log2 + 1 + a) := (Nat.pow_add ..).symm
    _ ≤ 2 ^ (b + den.log2) := Nat.pow_le_pow_right Nat.two_pos (by omega)
    _ = 2 ^ b * 2 ^ den.log2 := Nat.pow_add ..
    _ ≤ 2 ^ b * den := Nat.mul_le_mul_left _ (Nat.log2_self_le hden)

theorem log2_le_of_le {num den k : Nat} (hnum : num ≠ 0) (h : num ≤ 2 ^ k * den) :
    num.log2 ≤ k + den.log2 := by
  have hpow : 2 ^ num.log2 < 2 ^ (k + (den.log2 + 1)) := by
    calc
      2 ^ num.log2 ≤ num := Nat.log2_self_le hnum
      _ ≤ 2 ^ k * den := h
      _ < 2 ^ k * 2 ^ (den.log2 + 1) :=
          Nat.mul_lt_mul_of_pos_left Nat.lt_log2_self (Nat.two_pow_pos k)
      _ = 2 ^ (k + (den.log2 + 1)) := (Nat.pow_add ..).symm
  have hlt := (Nat.pow_lt_pow_iff_right (by decide)).mp hpow
  omega

/-- The mantissa is bounded by a power of two whatever the quotient is; only the exponent
grows. -/
theorem mantissa_le {num den : Nat} (hden : den ≠ 0) {exponent : Int}
    (h : (num.log2 : Int) - den.log2 - 53 ≤ exponent) :
    (if exponent < 0 then Rounding.halfEven (num * 2 ^ exponent.natAbs) den
      else Rounding.halfEven num (den * 2 ^ exponent.toNat)) ≤ 2 ^ 54 := by
  split
  · apply Rounding.halfEven_le (Nat.pos_of_ne_zero hden)
    apply Nat.le_of_lt
    apply mul_two_pow_lt hden
    omega
  · apply Rounding.halfEven_le (Nat.mul_pos (Nat.pos_of_ne_zero hden) (Nat.two_pow_pos _))
    have hlt : num * 2 ^ 0 < 2 ^ (54 + exponent.toNat) * den := by
      apply mul_two_pow_lt hden
      omega
    rw [Nat.pow_zero, Nat.mul_one, Nat.pow_add, Nat.mul_assoc, Nat.mul_comm _ den] at hlt
    exact Nat.le_of_lt hlt

theorem nearestBits_lt {num den : Nat} (h : num ≤ 2 ^ 1020 * den) :
    nearestBits num den < 2047 * 2 ^ 52 := by
  rw [nearestBits]
  split
  · decide
  · rename_i hne
    obtain ⟨hnum, hden⟩ := not_or.mp hne
    have hlog := log2_le_of_le hnum h
    dsimp only
    generalize (if (num.log2 : Int) - den.log2 < 0 then _ else _ : Bool) = small
    have hlow : (num.log2 : Int) - den.log2 - 53 ≤
        max (-1074) ((num.log2 : Int) - den.log2 - (if small then 53 else 52)) := by
      split <;> omega
    have hhigh :
        max (-1074) ((num.log2 : Int) - den.log2 - (if small then 53 else 52)) ≤ 968 := by
      split <;> omega
    have hmantissa := mantissa_le hden hlow
    generalize
      max (-1074) ((num.log2 : Int) - den.log2 - (if small then 53 else 52)) = exponent at *
    generalize (if exponent < 0 then _ else _ : Nat) = mantissa at *
    split <;> omega

theorem tooLarge_eq_false {num den : Nat} (h : num ≤ 2 ^ 1020 * den) : tooLarge num den = false :=
  decide_eq_false (Nat.ne_of_lt (nearestBits_lt h))

theorem exists_quotient {n d : Int} (h : n.natAbs ≤ 2 ^ 1020 * d.natAbs) :
    ∃ x, quotient n d = .ok x := by
  rw [quotient, tooLarge_eq_false h]
  exact ⟨_, rfl⟩

end Double

end StorageLoad
