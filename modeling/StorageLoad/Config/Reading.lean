import StorageLoad.Config.Range

/-!
Reading sizes, ranges, truth values and numbers from untyped option values.
-/

namespace StorageLoad.Config

open Text

/-- The factor a unit letter stands for, in either case; the Kelvin sign counts as `k`. -/
def unit? (c : Char) : Option Nat :=
  match lower c with
  | 'b' => some 1
  | 'k' => some 1024
  | 'm' => some (1024 ^ 2)
  | 'g' => some (1024 ^ 3)
  | _ => none

/-- The parts of a size text: digits, and at most one unit letter, with blanks around and
between. -/
def sizeParts? (cs : List Char) : Option (List Nat × Nat) :=
  let cs := cs.dropWhile isBlank
  let digits := (cs.takeWhile isDigit).filterMap digitValue?
  let rest := (cs.dropWhile isDigit).dropWhile isBlank
  if digits.isEmpty then none
  else
    match rest with
    | [] => some (digits, 1)
    | c :: rest =>
        (unit? c).bind fun factor => if rest.all isBlank then some (digits, factor) else none

/-- The number of bytes a text stands for, such as `512`, `64k` or `1M`. -/
def sizeOfText (s : String) : Outcome Int :=
  match sizeParts? s.toList with
  | none => .error (.option (.badSize s))
  | some (digits, factor) =>
      if digitLimit < digits.length then .error (.number (.tooManyDigits digits.length))
      else .ok (digitsValue digits * factor : Nat)

/-- The number of bytes a value stands for; an integer stands for itself. -/
def size (v : Value) : Outcome Int :=
  match v with
  | .bool _ => do throw (.option (.badSize (← v.toText?)))
  | .int n => .ok n
  | v => do sizeOfText (← v.toText?)

/-- An integer that any number or text can stand for. -/
def integer (v : Value) : Outcome Int :=
  v.toInt.mapError .number

/-- The ends of a range as they are given: a text split at its commas, the members of a list or
tuple, or one value. -/
def rangeEnds (v : Value) : List Value :=
  match v with
  | .text s => (splitAll ',' s.toList).map fun part => .text (String.ofList part)
  | .list items => items
  | .tuple items => items
  | v => [v]

/-- Two ends; a single one stands for both. -/
def twoEnds? : List Value → Option (Value × Value)
  | [a] => some (a, a)
  | [a, b] => some (a, b)
  | _ => none

/-- A range whose ends are read by `parse` and are not below `minimum`. -/
def range (parse : Value → Outcome Int) (minimum : Int) (v : Value) : Outcome Range := do
  match twoEnds? (rangeEnds v) with
  | none => throw (.option (.badRange (← v.toText?)))
  | some (a, b) =>
      match (do return (← parse a, ← parse b) : Outcome (Int × Int)) with
      | .error cause =>
          if cause.isBadInput then throw (.rangeEnd (← v.toText?) cause) else throw cause
      | .ok (lower, upper) =>
          if lower < minimum then
            throw (Fault.writing [minimum] (.option (.rangeTooLow (← v.toText?) minimum)))
          else Range.between lower upper

/-- A truth value; the words are read in any case. -/
def bool (v : Value) : Outcome Bool :=
  match v with
  | .bool b => .ok b
  | v => do
      let s ← v.toText?
      if ["true", "yes", "1"].any (isWord · s) then return true
      else if ["false", "no", "0"].any (isWord · s) then return false
      else throw (.option (.badBool s))

/-- A finite, non-negative real number, not above the maximum when there is one. -/
def number (name : String) (maximum : Option (Quantity Float)) (v : Value) : Outcome Float := do
  let bad : Outcome Float := do throw (.option (.badValue name (← v.quoted?)))
  match v with
  | .bool _ => bad
  | v =>
      match v.toReal with
      | .error cause => if (Fault.number cause).isBadInput then bad else throw (.number cause)
      | .ok x =>
          if !Double.isFinite x then throw (.option (.notFinite name (← v.toText?)))
          else if x < 0.0 then throw (.option (.negative name (← v.toText?)))
          else
            match maximum with
            | none => return x
            | some (.real limit) =>
                if limit < x then
                  throw (.option (.tooLarge name (Layout.shortest limit) (← v.toText?)))
                else return x
            | some (.whole limit) =>
                if Double.exceeds x limit then
                  throw (.option (.tooLarge name (← integerText limit) (← v.toText?)))
                else return x

/-- An integer that is not below the minimum. -/
def int (name : String) (minimum : Int) (v : Value) : Outcome Int := do
  let bad : Outcome Int := do throw (.option (.badValue name (← v.quoted?)))
  match v with
  | .null => bad
  | .bool _ => bad
  | v =>
      match v.toInt with
      | .error cause => if (Fault.number cause).isBadInput then bad else throw (.number cause)
      | .ok n =>
          if n < minimum then
            throw (Fault.writing [minimum, n] (.option (.tooSmall name minimum n)))
          else return n

end StorageLoad.Config
