/-!
What can go wrong between numbers and their texts.
-/

namespace StorageLoad

/-- Why a number could not be read, converted or written. -/
inductive NumberFault where
  /-- A text that spells no integer in a base; given quoted and shortened. -/
  | notInteger (base : Nat) (quoted : String)
  /-- A text with more digits than an integer may have. -/
  | tooManyDigits (count : Nat)
  /-- An integer with more digits than may be written. -/
  | tooLongToWrite
  /-- A text that spells no real number; given quoted. -/
  | notReal (quoted : String)
  /-- A value of a sort that has no integer. -/
  | noInteger (sort : String)
  /-- A value of a sort that has no real number. -/
  | noReal (sort : String)
  | nanToInteger
  | infinityToInteger
  /-- An integer beyond the largest double. -/
  | tooLargeForReal
  /-- A quotient of integers beyond the largest double. -/
  | quotientTooLarge
  deriving Repr, DecidableEq

/-- The most digits an integer may have in a text. -/
def digitLimit : Nat := 4300

namespace NumberFault

def message : NumberFault → String
  | notInteger base quoted => s!"invalid literal for int() with base {base}: " ++ quoted
  | tooManyDigits count =>
      s!"Exceeds the limit ({digitLimit} digits) for integer string conversion: " ++
        s!"value has {count} digits; use sys.set_int_max_str_digits() to increase the limit"
  | tooLongToWrite =>
      s!"Exceeds the limit ({digitLimit} digits) for integer string conversion; " ++
        "use sys.set_int_max_str_digits() to increase the limit"
  | notReal quoted => "could not convert string to float: " ++ quoted
  | noInteger sort =>
      "int() argument must be a string, a bytes-like object or a real number, " ++
        "not '" ++ sort ++ "'"
  | noReal sort => "float() argument must be a string or a real number, not '" ++ sort ++ "'"
  | nanToInteger => "cannot convert float NaN to integer"
  | infinityToInteger => "cannot convert float infinity to integer"
  | tooLargeForReal => "int too large to convert to float"
  | quotientTooLarge => "integer division result too large for a float"

end NumberFault

end StorageLoad
