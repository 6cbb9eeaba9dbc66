import StorageLoad.Numeric.Power
import StorageLoad.Numeric.Rounding

/-!
The exact value of a double, and the double nearest to an exact quotient.  Both directions work on
the bits, in integer arithmetic.
-/

namespace StorageLoad.Double

/-- What the bits of a double stand for: a finite one is `± mantissa * 2 ^ exponent`. -/
inductive Shape where
  | nan
  | infinite (negative : Bool)
  | finite (negative : Bool) (mantissa : Nat) (exponent : Int)
  deriving Repr, DecidableEq

/-- Reads the sign bit, the eleven exponent bits and the fifty-two fraction bits. -/
def shape (x : Float) : Shape :=
  let bits := x.toBits.toNat
  let negative := decide (bits / 2 ^ 63 = 1)
  let power : Nat := bits / 2 ^ 52 % 2048
  let fraction := bits % 2 ^ 52
  if power = 2047 then
    if fraction = 0 then .infinite negative else .nan
  else if power = 0 then .finite negative fraction (-1074)
  else .finite negative (2 ^ 52 + fraction) ((power : Int) - 1075)

/-- A quotient that equals `mantissa * 2 ^ exponent`. -/
def Shape.quotient (mantissa : Nat) (exponent : Int) : Nat × Nat :=
  if exponent < 0 then (mantissa, 2 ^ exponent.natAbs) else (mantissa * 2 ^ exponent.toNat, 1)

/-- The bits of the double nearest to `num / den`, without the sign; a half goes to the even
neighbour and what is too large goes to infinity. -/
def nearestBits (num den : Nat) : Nat :=
  if num = 0 ∨ den = 0 then 0
  else
    let gap : Int := (num.log2 : Int) - den.log2
    -- The quotient lies between `2 ^ (gap - 1)` and `2 ^ (gap + 1)`.
    let small : Bool :=
      if gap < 0 then decide (num * 2 ^ gap.natAbs < den) else decide (num < den * 2 ^ gap.toNat)
    let exponent : Int := max (-1074) (gap - (if small then 53 else 52))
    let mantissa :=
      if exponent < 0 then Rounding.halfEven (num * 2 ^ exponent.natAbs) den
      else Rounding.halfEven num (den * 2 ^ exponent.toNat)
    let bits :=
      if mantissa < 2 ^ 52 then mantissa
      else (exponent + 1075).toNat * 2 ^ 52 + (mantissa - 2 ^ 52)
    min bits (2047 * 2 ^ 52)

/-- The double nearest to `± num / den`. -/
def nearest (negative : Bool) (num den : Nat) : Float :=
  Float.ofBits (UInt64.ofNat ((if negative then 2 ^ 63 else 0) + nearestBits num den))

/-- Whether the nearest double to `num / den` is infinity. -/
def tooLarge (num den : Nat) : Bool :=
  nearestBits num den = 2047 * 2 ^ 52

def isFinite (x : Float) : Bool :=
  match shape x with
  | .finite .. => true
  | _ => false

/-- Whether a double and an integer are the same number. -/
def equalsInt (x : Float) (n : Int) : Bool :=
  match shape x with
  | .finite negative mantissa exponent =>
      let (num, den) := Shape.quotient mantissa exponent
      decide ((if negative then -(num : Int) else num) = n * den)
  | _ => false

/-- Whether a double is a number above an integer. -/
def exceeds (x : Float) (n : Int) : Bool :=
  match shape x with
  | .nan => false
  | .infinite negative => !negative
  | .finite negative mantissa exponent =>
      let (num, den) := Shape.quotient mantissa exponent
      decide (n * den < (if negative then -(num : Int) else num))

end StorageLoad.Double
