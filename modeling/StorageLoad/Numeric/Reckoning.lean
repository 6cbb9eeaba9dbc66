import StorageLoad.Numeric.Fault
import StorageLoad.Numeric.Layout

/-!
The numbers in which shares, weights and averages are reckoned: doubles when the program runs,
exact rationals where a law is stated without rounding.
-/

namespace StorageLoad

/-- Numbers with a text, between which and the integers there are conversions that may fail. -/
class Reckoning (𝕜 : Type) where
  /-- The nearest number to an integer. -/
  ofInt : Int → Except NumberFault 𝕜
  /-- The nearest number to a quotient of integers. -/
  quotient : Int → Int → Except NumberFault 𝕜
  /-- The integer part, towards zero. -/
  truncate : 𝕜 → Except NumberFault Int
  /-- The nearest integer, a half going to the even neighbour. -/
  round : 𝕜 → Except NumberFault Int
  /-- The text of a number. -/
  text : 𝕜 → String

namespace Double

def ofInt (n : Int) : Except NumberFault Float :=
  if tooLarge n.natAbs 1 then .error .tooLargeForReal else .ok (nearest (n < 0) n.natAbs 1)

def quotient (n d : Int) : Except NumberFault Float :=
  if tooLarge n.natAbs d.natAbs then .error .quotientTooLarge
  else .ok (nearest (decide (n < 0) != decide (d < 0)) n.natAbs d.natAbs)

/-- Applies a rule for quotients of naturals to the exact value of a double and restores the
sign. -/
def toInt (rule : Nat → Nat → Nat) (x : Float) : Except NumberFault Int :=
  match shape x with
  | .nan => .error .nanToInteger
  | .infinite _ => .error .infinityToInteger
  | .finite negative mantissa exponent =>
      let (num, den) := Shape.quotient mantissa exponent
      .ok (if negative then -(rule num den : Int) else rule num den)

instance : Reckoning Float where
  ofInt := ofInt
  quotient := quotient
  truncate := toInt (· / ·)
  round := toInt Rounding.halfEven
  text := Layout.shortest

end Double

/-- Rationals are exact, and every conversion succeeds. -/
instance : Reckoning Rat where
  ofInt n := .ok n
  quotient n d := .ok ((n : Rat) / (d : Rat))
  truncate x := .ok (x.num.tdiv x.den)
  round x := .ok (Rounding.halfEvenInt x.num x.den)
  text x := toString x

/-- A number given either as an integer or as a real. -/
inductive Quantity (𝕜 : Type) where
  | whole (n : Int)
  | real (x : 𝕜)
  deriving Repr

namespace Quantity

variable {𝕜 : Type} [LT 𝕜] [LE 𝕜] [DecidableLT 𝕜] [DecidableLE 𝕜] [OfScientific 𝕜]
  [Reckoning 𝕜]

def toReal : Quantity 𝕜 → Except NumberFault 𝕜
  | whole n => Reckoning.ofInt n
  | real x => .ok x

def text : Quantity 𝕜 → String
  | whole n => toString n
  | real x => Reckoning.text x

def isNegative : Quantity 𝕜 → Bool
  | whole n => n < 0
  | real x => decide (x < (0.0 : 𝕜))

def isPositive : Quantity 𝕜 → Bool
  | whole n => 0 < n
  | real x => decide ((0.0 : 𝕜) < x)

/-- Whether a number is not between zero and one. -/
def isOutsideUnit : Quantity 𝕜 → Bool
  | whole n => n ≠ 0 ∧ n ≠ 1
  | real x => !decide ((0.0 : 𝕜) ≤ x ∧ x ≤ (1.0 : 𝕜))

def isZero : Quantity 𝕜 → Bool
  | whole n => n = 0
  | real x => decide (x ≤ (0.0 : 𝕜) ∧ (0.0 : 𝕜) ≤ x)

end Quantity

end StorageLoad
