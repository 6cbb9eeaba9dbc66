import StorageLoad.Random.Source

/-!
Bounds of what is drawn from a source of random words.
-/

namespace StorageLoad

namespace RandomSource

variable {ρ : Type} [RandomSource ρ]

theorem joinWords_lt (ws : List UInt32) : joinWords ws < 2 ^ (32 * ws.length) := by
  induction ws with
  | nil => exact Nat.one_pos
  | cons w ws ih =>
      have hw := w.toNat_lt
      rw [joinWords, List.length_cons, Nat.mul_succ, Nat.pow_add,
        Nat.mul_comm (2 ^ (32 * ws.length))]
      omega

theorem bits_lt (count : Nat) (r : ρ) : (bits count r).1 < 2 ^ count := by
  have hwhole := joinWords_lt (words (count / 32) r).1
  rw [length_words] at hwhole
  by_cases hrest : count % 32 = 0
  · simp only [bits, if_pos hrest]
    have hcount : 32 * (count / 32) = count := by omega
    rwa [hcount] at hwhole
  · simp only [bits, if_neg hrest]
    generalize (next (words (count / 32) r).2).1 = last
    have hlast : last.toNat / 2 ^ (32 - count % 32) < 2 ^ (count % 32) := by
      rw [Nat.div_lt_iff_lt_mul (Nat.two_pow_pos _), ← Nat.pow_add]
      have hword : count % 32 + (32 - count % 32) = 32 := by omega
      rw [hword]
      exact last.toNat_lt
    calc
      _ < 2 ^ (32 * (count / 32)) + 2 ^ (32 * (count / 32)) *
        (last.toNat / 2 ^ (32 - count % 32)) :=
          Nat.add_lt_add_right hwhole _
      _ = 2 ^ (32 * (count / 32)) * (last.toNat / 2 ^ (32 - count % 32) + 1) := by
          rw [Nat.mul_add, Nat.mul_one, Nat.add_comm]
      _ ≤ 2 ^ (32 * (count / 32)) * 2 ^ (count % 32) := Nat.mul_le_mul_left _ hlast
      _ = 2 ^ count := by rw [← Nat.pow_add, Nat.div_add_mod]

end RandomSource

/-- A source that yields nothing but zeros. -/
structure Zeros where

instance : RandomSource Zeros where
  next r := (0, r)

end StorageLoad
