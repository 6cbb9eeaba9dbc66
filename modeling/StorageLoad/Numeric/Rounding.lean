/-!
Rounding a quotient of naturals to the nearest integer, a half going to the even neighbour.  The
main statement is that the result is never more than half a unit away (`two_mul_le_halfEven`,
`halfEven_mul_two_le`).
-/

namespace StorageLoad.Rounding

/-- The integer nearest to `num / den`; of two equally near ones, the even one. -/
def halfEven (num den : Nat) : Nat :=
  let whole := num / den
  let twice := 2 * (num % den)
  if twice < den then whole
  else if den < twice then whole + 1
  else if whole % 2 = 0 then whole
  else whole + 1

theorem div_le_halfEven (num den : Nat) : num / den ≤ halfEven num den := by
  simp only [halfEven]
  split
  · exact Nat.le_refl _
  · split
    · omega
    · split <;> omega

theorem halfEven_le_succ_div (num den : Nat) : halfEven num den ≤ num / den + 1 := by
  simp only [halfEven]
  split
  · omega
  · split
    · omega
    · split <;> omega

/-- The rounded value is at most half a unit too small. -/
theorem two_mul_le_halfEven (num den : Nat) (hden : 0 < den) :
    2 * num ≤ 2 * (halfEven num den * den) + den := by
  have hmod := Nat.mod_lt num hden
  have hsplit := Nat.div_add_mod num den
  have hcomm := Nat.mul_comm den (num / den)
  have hsucc : (num / den + 1) * den = num / den * den + den := Nat.succ_mul _ _
  rw [halfEven]
  split
  · omega
  · split
    · omega
    · split <;> omega

/-- The rounded value is at most half a unit too large. -/
theorem halfEven_mul_two_le (num den : Nat) :
    2 * (halfEven num den * den) ≤ 2 * num + den := by
  have hsplit := Nat.div_add_mod num den
  have hcomm := Nat.mul_comm den (num / den)
  have hsucc : (num / den + 1) * den = num / den * den + den := Nat.succ_mul _ _
  rw [halfEven]
  split
  · omega
  · split
    · omega
    · split <;> omega

@[simp] theorem halfEven_one (num : Nat) : halfEven num 1 = num := by
  simp [halfEven, Nat.mod_one]

/-- The integer nearest to `num / den` for a signed numerator. -/
def halfEvenInt (num : Int) (den : Nat) : Int :=
  if num < 0 then -(halfEven num.natAbs den : Int) else halfEven num.natAbs den

end StorageLoad.Rounding
