import StorageLoad.Numeric.Power

/-!
Sources of random words, and the draws made from them.  A draw returns the source as it stands
afterwards.
-/

namespace StorageLoad

/-- A source that yields one 32-bit word after the other. -/
class RandomSource (ρ : Type) where
  next : ρ → UInt32 × ρ

namespace RandomSource

variable {ρ : Type} [RandomSource ρ]

/-- The next `count` words. -/
def words : Nat → ρ → List UInt32 × ρ
  | 0, r => ([], r)
  | count + 1, r =>
      let (w, r) := next r
      let (ws, r) := words count r
      (w :: ws, r)

theorem length_words (count : Nat) (r : ρ) : (words count r).1.length = count := by
  induction count generalizing r with
  | zero => rfl
  | succ count ih => simp [words, ih]

/-- The number whose base `2 ^ 32` digits are the words, least significant first. -/
def joinWords : List UInt32 → Nat
  | [] => 0
  | w :: ws => w.toNat + 2 ^ 32 * joinWords ws

/-- A number of `count` random bits.  Whole words come first, least significant first; of a last
word that is not needed in full, the high bits are taken. -/
def bits (count : Nat) (r : ρ) : Nat × ρ :=
  let (ws, r) := words (count / 32) r
  if count % 32 = 0 then (joinWords ws, r)
  else
    let (w, r) := next r
    (joinWords ws + 2 ^ (32 * (count / 32)) * (w.toNat / 2 ^ (32 - count % 32)), r)

/-- A fraction of `2 ^ 53`, the numerator of a random number in `[0, 1)`. -/
def unit (r : ρ) : Nat × ρ :=
  let (high, r) := next r
  let (low, r) := next r
  (high.toNat / 2 ^ 5 * 2 ^ 26 + low.toNat / 2 ^ 6, r)

theorem unit_lt (r : ρ) : (unit r).1 < 2 ^ 53 := by
  simp only [unit]
  have hhigh := (next r).1.toNat_lt
  have hlow := (next (next r).2).1.toNat_lt
  omega

/-- How many draws are made for one number below a bound.  In the twister no more than 19937 draws
in a row have their top bit set, so one of so many is always small enough. -/
def drawLimit : Nat := 19938

/-- A number below a bound: the first small enough one among draws of as many bits as the bound
has. -/
def below (bound : Nat) (r : ρ) : Nat × ρ :=
  draw drawLimit r
where
  draw : Nat → ρ → Nat × ρ
    | 0, r => (0, r)
    | fuel + 1, r =>
        let (n, r) := bits (bound.log2 + 1) r
        if n < bound then (n, r) else draw fuel r

theorem below_draw_lt {bound : Nat} (h : 0 < bound) (fuel : Nat) (r : ρ) :
    (below.draw bound fuel r).1 < bound := by
  induction fuel generalizing r with
  | zero => exact h
  | succ fuel ih =>
    simp only [below.draw]
    split
    · assumption
    · exact ih _

theorem below_lt {bound : Nat} (h : 0 < bound) (r : ρ) : (below bound r).1 < bound :=
  below_draw_lt h drawLimit r

/-- A number between two bounds, both included. -/
def between (lower upper : Int) (r : ρ) : Int × ρ :=
  let (n, r) := below (upper - lower + 1).toNat r
  (lower + n, r)

theorem lower_le_between {lower upper : Int} (r : ρ) : lower ≤ (between lower upper r).1 := by
  simp only [between]
  omega

theorem between_le_upper {lower upper : Int} (h : lower ≤ upper) (r : ρ) :
    (between lower upper r).1 ≤ upper := by
  have hlt : (below (upper - lower + 1).toNat r).1 < (upper - lower + 1).toNat :=
    below_lt (by omega) r
  simp only [between]
  omega

/-- Puts the bytes of a word before others, the least significant first. -/
@[inline] def consWord (w : UInt32) (bs : List UInt8) : List UInt8 :=
  w.toUInt8 :: (w >>> 8).toUInt8 :: (w >>> 16).toUInt8 :: (w >>> 24).toUInt8 :: bs

/-- The bytes of the next `count` words. -/
@[specialize] def bytes : Nat → ρ → List UInt8 × ρ
  | 0, r => ([], r)
  | count + 1, r =>
      let (w, r) := next r
      let (bs, r) := bytes count r
      (consWord w bs, r)

theorem length_bytes (count : Nat) (r : ρ) : (bytes count r).1.length = 4 * count := by
  induction count generalizing r with
  | zero => rfl
  | succ count ih =>
    simp only [bytes, consWord, List.length_cons, ih]
    omega

end RandomSource

end StorageLoad
