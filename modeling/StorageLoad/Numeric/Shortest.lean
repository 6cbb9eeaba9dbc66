import StorageLoad.Numeric.Double

/-!
The shortest decimal that reads back as a given double.  A decimal reads back exactly when it lies
in the interval of numbers that round to the double, ends included for an even mantissa, so the
search goes through the grids of one, two, … digits and takes the first neighbour of the value
that lies inside.
-/

namespace StorageLoad.Shortest

/-- The decimal `digits * 10 ^ power`. -/
structure Decimal where
  digits : Nat
  power : Int
  deriving Repr, DecidableEq

/-- The numbers that round to `mantissa * 2 ^ exponent`, as numerators over one denominator. -/
structure Interval where
  lower : Nat
  value : Nat
  upper : Nat
  den : Nat
  closed : Bool

/-- The gap below a power of two is half the gap above it, except among the smallest doubles. -/
def Interval.around (mantissa : Nat) (exponent : Int) : Interval :=
  let (num, den) := Double.Shape.quotient mantissa exponent
  let unit := num / mantissa
  let below := if mantissa = 2 ^ 52 ∧ -1074 < exponent then unit else 2 * unit
  { lower := 4 * num - below, value := 4 * num, upper := 4 * num + 2 * unit, den := 4 * den,
    closed := mantissa % 2 = 0 }

/-- Whether the decimal `digits * 10 ^ power` rounds to the double. -/
def Interval.holds (i : Interval) (digits : Nat) (power : Int) : Bool :=
  let scaled := digits * 10 ^ power.toNat * i.den
  let shift := 10 ^ (-power).toNat
  if i.closed then decide (i.lower * shift ≤ scaled ∧ scaled ≤ i.upper * shift)
  else decide (i.lower * shift < scaled ∧ scaled < i.upper * shift)

/-- The number of decimal digits before the point: `10 ^ (p - 1) ≤ num / den < 10 ^ p`.  Starts
from an estimate that is never too large and climbs. -/
def magnitude (num den : Nat) : Int :=
  climb 4 (((num.log2 : Int) - den.log2 - 1) * 30103 / 100000)
where
  climb : Nat → Int → Int
    | 0, p => p
    | fuel + 1, p =>
        if num * 10 ^ (-p).toNat < den * 10 ^ p.toNat then p else climb fuel (p + 1)

/-- The nearer of the two neighbours on the grid of `10 ^ power` that rounds to the double, if
any; of two equally near ones, the even one. -/
def onGrid (i : Interval) (power : Int) : Option Decimal :=
  let num := i.value * 10 ^ (-power).toNat
  let den := i.den * 10 ^ power.toNat
  let low := num / den
  let nearest := Rounding.halfEven num den
  let other := if nearest = low then low + 1 else low
  if i.holds nearest power then some ⟨nearest, power⟩
  else if i.holds other power then some ⟨other, power⟩
  else none

/-- The decimal with the fewest digits that rounds to `mantissa * 2 ^ exponent`. -/
def ofParts (mantissa : Nat) (exponent : Int) : Decimal :=
  let i := Interval.around mantissa exponent
  let places := magnitude i.value i.den
  let found := (List.range 17).findSome? fun (k : Nat) => onGrid i (places - 1 - k)
  trim 17 (found.getD ⟨0, 0⟩)
where
  trim : Nat → Decimal → Decimal
    | 0, d => d
    | fuel + 1, d =>
        if d.digits % 10 = 0 ∧ d.digits ≠ 0 then trim fuel ⟨d.digits / 10, d.power + 1⟩ else d

end StorageLoad.Shortest
