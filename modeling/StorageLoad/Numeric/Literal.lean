import StorageLoad.Numeric.Double
import StorageLoad.Numeric.Fault
import StorageLoad.Text.Blank
import StorageLoad.Text.Digit
import StorageLoad.Text.Quoted

/-!
Reading integers and real numbers from text.  Digits of any script count, blanks may surround the
number, and a single underscore may stand between two digits.
-/

namespace StorageLoad.Literal

open Text

/-- An optional sign: whether it is a minus, and what follows it. -/
def sign : List Char → Bool × List Char
  | '-' :: cs => (true, cs)
  | '+' :: cs => (false, cs)
  | cs => (false, cs)

/-- The values of digits with single underscores between them; `none` when an underscore does not
stand between two digits or there is no digit.  The flag says that a digit stands directly
before. -/
def grouped? : Bool → List Char → Option (List Nat)
  | afterDigit, [] => if afterDigit then some [] else none
  | afterDigit, c :: cs =>
      if c = '_' then if afterDigit then grouped? false cs else none
      else (digitValue? c).bind fun d => (grouped? true cs).map (d :: ·)

/-- The integer a text spells: a sign, then digits.  The limit on digits is checked before what
follows them. -/
def integer (s : String) : Except NumberFault Int :=
  let bad := .error (.notInteger 10 (Quoted.encodeShort s))
  let (negative, cs) := sign (s.toList.dropWhile isMargin)
  let inNumber (c : Char) : Bool := isDigit c || c == '_'
  match grouped? false (cs.takeWhile inNumber) with
  | none => bad
  | some ds =>
      if digitLimit < ds.length then .error (.tooManyDigits ds.length)
      else if (cs.dropWhile inNumber).all isMargin then
        .ok (if negative then -(digitsValue ds : Int) else digitsValue ds)
      else bad

/-- The value of a letter or a decimal digit of any script as a digit of larger bases. -/
def letterValue? (c : Char) : Option Nat :=
  match digitValue? c with
  | some d => some d
  | none =>
      if 'a' ≤ c ∧ c ≤ 'z' then some (c.toNat - 'a'.toNat + 10)
      else if 'A' ≤ c ∧ c ≤ 'Z' then some (c.toNat - 'A'.toNat + 10)
      else none

/-- The text after a zero and the letter that marks a base, where it has them. -/
def withoutMark (letter : Char) : List Char → List Char
  | '0' :: c :: cs => if c.toLower = letter then cs else '0' :: c :: cs
  | cs => cs

/-- The integer a text without underscores spells in a base with a letter of its own. -/
def integerIn (base : Nat) (letter : Char) (s : String) : Except NumberFault Int :=
  let (negative, cs) := sign (trim isMargin s.toList)
  match (withoutMark letter cs).mapM letterValue? with
  | some (d :: ds) =>
      if (d :: ds).all (· < base) then
        let n := (d :: ds).foldl (fun n d => base * n + d) 0
        .ok (if negative then -(n : Int) else n)
      else .error (.notInteger base (Quoted.encodeShort s))
  | _ => .error (.notInteger base (Quoted.encodeShort s))

/-- The text without its underscores; `none` unless each stands between two digits. -/
def ungroup? : Bool → List Char → Option (List Char)
  | _, [] => some []
  | afterDigit, '_' :: c :: cs =>
      if afterDigit ∧ c.isDigit then (ungroup? true cs).map (c :: ·) else none
  | _, c :: cs => if c = '_' then none else (ungroup? c.isDigit cs).map (c :: ·)

/-- The double nearest to `digits * 10 ^ power`.  Where the power alone decides between zero and
infinity, the number is not built. -/
def scaled (negative : Bool) (digits : Nat) (power : Int) : Float :=
  let size : Int := (Nat.toDigits 10 digits).length
  if digits = 0 ∨ size + power < -400 then Double.nearest negative 0 1
  else if 400 < size + power then Double.nearest negative (10 ^ 400) 1
  else if power < 0 then Double.nearest negative digits (10 ^ power.natAbs)
  else Double.nearest negative (digits * 10 ^ power.toNat) 1

/-- An exponent mark with its digits, or nothing at all. -/
def exponent? : List Char → Option Int
  | [] => some 0
  | c :: cs =>
      if c = 'e' ∨ c = 'E' then
        let (negative, ds) := sign cs
        (grouped? false ds).map fun ds =>
          if negative then -(digitsValue ds : Int) else digitsValue ds
      else none

/-- The double that digits with a point and an exponent spell. -/
def decimal? (negative : Bool) (cs : List Char) : Option Float :=
  let whole := cs.takeWhile Char.isDigit
  let rest := cs.dropWhile Char.isDigit
  let (places, rest) := match rest with
    | '.' :: rest => (rest.takeWhile Char.isDigit, rest.dropWhile Char.isDigit)
    | _ => ([], rest)
  let ds := whole ++ places
  if ds.isEmpty then none
  else
    (exponent? rest).map fun power =>
      scaled negative (digitsValue (ds.filterMap digitValue?)) (power - places.length)

/-- The double that a text without blanks and with ASCII digits spells. -/
def plainReal? (cs : List Char) : Option Float :=
  let (negative, cs) := sign cs
  let word := String.ofList (cs.map Char.toLower)
  if word = "inf" ∨ word = "infinity" then some (Double.nearest negative (10 ^ 400) 1)
  else if word = "nan" then some (0.0 / 0.0)
  else decimal? negative cs

/-- The real number a text spells, as the nearest double. -/
def real (s : String) : Except NumberFault Float :=
  let ascii (c : Char) : Char :=
    match digitValue? c with
    | some d => Char.ofNat ('0'.toNat + d)
    | none => c
  match (ungroup? false ((trim isMargin s.toList).map ascii)).bind plainReal? with
  | some x => .ok x
  | none => .error (.notReal (Quoted.encode s))

end StorageLoad.Literal
