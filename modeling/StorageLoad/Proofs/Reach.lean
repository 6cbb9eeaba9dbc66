import StorageLoad.Proofs.Random

/-!
What can be drawn at all.  A draw below a bound never goes beyond it; a source that may yield any
words can make it every number below (`reaches_listed`).
-/

namespace StorageLoad

/-- A source that yields given words, and zeros after them. -/
structure Listed where
  words : List UInt32

instance : RandomSource Listed where
  next r :=
    match r.words with
    | [] => (0, r)
    | w :: ws => (w, ⟨ws⟩)

namespace RandomSource

/-- The draw below a bound can come to every number below it. -/
def Reaches (ρ : Type) [RandomSource ρ] (bound : Nat) : Prop :=
  ∀ number < bound, ∃ r : ρ, (below bound r).1 = number

/-- The lowest base `2 ^ 32` digits of a number, least significant first. -/
def splitWords : Nat → Nat → List UInt32
  | 0, _ => []
  | count + 1, n => UInt32.ofNat n :: splitWords count (n / 2 ^ 32)

@[simp] theorem length_splitWords (count n : Nat) : (splitWords count n).length = count := by
  induction count generalizing n with
  | zero => rfl
  | succ count ih => rw [splitWords, List.length_cons, ih]

theorem joinWords_splitWords (count n : Nat) :
    joinWords (splitWords count n) = n % 2 ^ (32 * count) := by
  induction count generalizing n with
  | zero => rw [splitWords, joinWords, Nat.mul_zero, Nat.pow_zero, Nat.mod_one]
  | succ count ih =>
      rw [splitWords, joinWords, ih, UInt32.toNat_ofNat', Nat.mul_succ, Nat.add_comm (32 * count),
        Nat.pow_add, Nat.mod_mul]

theorem words_listed (ws rest : List UInt32) :
    words ws.length (⟨ws ++ rest⟩ : Listed) = (ws, ⟨rest⟩) := by
  induction ws with
  | nil => rfl
  | cons w ws ih =>
      have hnext : next (⟨w :: ws ++ rest⟩ : Listed) = (w, ⟨ws ++ rest⟩) := rfl
      rw [List.length_cons, words, hnext]
      dsimp only
      rw [ih]

theorem exists_bits {count n : Nat} (h : n < 2 ^ count) : ∃ r : Listed, (bits count r).1 = n := by
  -- What is left above whole words goes into the high bits of one more.
  refine ⟨⟨splitWords (count / 32) n ++
    [UInt32.ofNat (n / 2 ^ (32 * (count / 32)) * 2 ^ (32 - count % 32))]⟩, ?_⟩
  have hwords := words_listed (splitWords (count / 32) n)
    [UInt32.ofNat (n / 2 ^ (32 * (count / 32)) * 2 ^ (32 - count % 32))]
  rw [length_splitWords] at hwords
  rw [bits, hwords]
  dsimp only
  split
  · rename_i hwhole
    have hcount : 32 * (count / 32) = count := by omega
    rw [joinWords_splitWords, hcount, Nat.mod_eq_of_lt h]
  · rename_i hrest
    have htop : n / 2 ^ (32 * (count / 32)) < 2 ^ (count % 32) := by
      rw [Nat.div_lt_iff_lt_mul (Nat.two_pow_pos _), ← Nat.pow_add, Nat.add_comm, Nat.div_add_mod]
      exact h
    have hword : n / 2 ^ (32 * (count / 32)) * 2 ^ (32 - count % 32) < 2 ^ 32 := by
      calc
        _ < 2 ^ (count % 32) * 2 ^ (32 - count % 32) :=
          Nat.mul_lt_mul_of_pos_right htop (Nat.two_pow_pos _)
        _ = 2 ^ 32 := by
          rw [← Nat.pow_add]
          congr 1
          omega
    change joinWords _ + _ * ((UInt32.ofNat _).toNat / _) = n
    rw [joinWords_splitWords, UInt32.toNat_ofNat', Nat.mod_eq_of_lt hword,
      Nat.mul_div_cancel _ (Nat.two_pow_pos _), Nat.mod_add_div]

theorem reaches_listed (bound : Nat) : Reaches Listed bound := by
  intro number hlt
  obtain ⟨r, hr⟩ := exists_bits (Nat.lt_trans hlt Nat.lt_log2_self)
  refine ⟨r, ?_⟩
  change (below.draw bound (19937 + 1) r).1 = number
  rw [below.draw]
  generalize bits (bound.log2 + 1) r = drawn at hr ⊢
  obtain ⟨n, r'⟩ := drawn
  obtain rfl : n = number := hr
  dsimp only
  rw [if_pos hlt]

end RandomSource

end StorageLoad
