import StorageLoad.Numeric.Shortest

/-!
The written forms of a double: the shortest form, positional or with an exponent, and the form
with a fixed number of places.
-/

namespace StorageLoad.Layout

/-- How the shortest form is laid out. -/
structure Style where
  /-- The least decimal exponent that is written positionally. -/
  least : Int
  /-- The first decimal exponent that is no longer written positionally. -/
  limit : Int
  /-- The least number of digits of a written exponent. -/
  exponentDigits : Nat
  notANumber : String
  infinity : String

/-- Positional from `0.0001` up to below `10 ^ 16`, a whole number keeping `.0`; otherwise an
exponent with its sign and at least two digits. -/
def style : Style :=
  { least := -4, limit := 16, exponentDigits := 2, notANumber := "nan", infinity := "inf" }

def zeros (n : Nat) : List Char :=
  List.replicate n '0'

/-- The digits of a natural, padded with zeros on the left. -/
def padded (width n : Nat) : List Char :=
  let digits := Nat.toDigits 10 n
  zeros (width - digits.length) ++ digits

/-- The layout of the digits `ds`, the first of which has the weight `10 ^ lead`. -/
def Style.digits (s : Style) (ds : List Char) (lead : Int) : List Char :=
  if lead < s.least ∨ s.limit ≤ lead then
    let head := match ds with
      | [] => []
      | [d] => [d]
      | d :: rest => d :: '.' :: rest
    head ++ 'e' :: (if lead < 0 then '-' else '+') :: padded s.exponentDigits lead.natAbs
  else if lead < 0 then
    '0' :: '.' :: zeros (lead.natAbs - 1) ++ ds
  else
    let whole := lead.toNat + 1
    if ds.length ≤ whole then ds ++ zeros (whole - ds.length) ++ ['.', '0']
    else ds.take whole ++ '.' :: ds.drop whole

/-- The shortest text that reads back as `x`. -/
def shortest (x : Float) : String :=
  match Double.shape x with
  | .nan => style.notANumber
  | .infinite negative => (if negative then "-" else "") ++ style.infinity
  | .finite negative mantissa exponent =>
      let sign := if negative then ['-'] else []
      if mantissa = 0 then String.ofList (sign ++ ['0', '.', '0'])
      else
        let d := Shortest.ofParts mantissa exponent
        let ds := Nat.toDigits 10 d.digits
        String.ofList (sign ++ style.digits ds (d.power + ds.length - 1))

/-- The text of `x` with exactly `places` digits after the point, rounded from its exact value
with a half going to the even neighbour. -/
def fixed (places : Nat) (x : Float) : String :=
  match Double.shape x with
  | .nan => style.notANumber
  | .infinite negative => (if negative then "-" else "") ++ style.infinity
  | .finite negative mantissa exponent =>
      let (num, den) := Double.Shape.quotient mantissa exponent
      let digits := padded (places + 1) (Rounding.halfEven (num * 10 ^ places) den)
      let whole := digits.length - places
      let sign := if negative then ['-'] else []
      String.ofList (sign ++ digits.take whole ++ '.' :: digits.drop whole)

end StorageLoad.Layout
