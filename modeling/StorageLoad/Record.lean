import StorageLoad.Fault

/-!
Statistics: a figure under the name of an operation and of a measurement.  A statistic goes out as
a key and a text, and figures with equal keys can be merged.
-/

namespace StorageLoad

/-- A measured value.  The two sorts of integers are told apart by their keys only. -/
inductive Figure where
  | long (n : Int)
  | double (x : Float)
  | integer (n : Int)
  | text (s : String)
  deriving Repr, DecidableEq

namespace Figure

/-- The sorts of figures. -/
inductive Form where
  | long
  | double
  | integer
  | text
  deriving Repr, DecidableEq

/-- The letter that stands for a sort in keys. -/
def Form.letter : Form → Char
  | long => 'l'
  | double => 'd'
  | integer => 'i'
  | text => 's'

/-- The sort with a letter, which has to be the whole text. -/
def Form.ofText? (cs : List Char) : Option Form :=
  [long, double, integer, text].find? fun form => cs = [form.letter]

theorem Form.ofText?_eq_some_iff {cs : List Char} {form : Form} :
    Form.ofText? cs = some form ↔ cs = [form.letter] := by
  constructor
  · intro h
    simpa using List.find?_some h
  · rintro rfl
    cases form <;> decide

def form : Figure → Form
  | long _ => .long
  | double _ => .double
  | integer _ => .integer
  | text _ => .text

/-- Reads a figure of a sort from any value. -/
def ofValue (form : Form) (v : Value) : Outcome Figure :=
  match form with
  | .long => do return long (← v.toInt)
  | .double => do return double (← v.toReal)
  | .integer => do return integer (← v.toInt)
  | .text => do return text (← v.toText?)

def toValue : Figure → Value
  | long n => .int n
  | double x => .real x
  | integer n => .int n
  | text s => .text s

/-- The text of a figure. -/
def toText (f : Figure) : Outcome String :=
  f.toValue.toTextOutcome

/-- The sum of two figures of one sort; texts are joined by semicolons. -/
def add : Figure → Figure → Option Figure
  | long m, long n => some (long (m + n))
  | double x, double y => some (double (x + y))
  | integer m, integer n => some (integer (m + n))
  | text s, text t => some (text (s ++ ";" ++ t))
  | _, _ => none

/-- Whether two figures have the same value; a figure that is no number equals none. -/
def same (f g : Figure) : Bool :=
  match f, g with
  | double x, double y => x == y
  | f, g => f.toValue.sameKey g.toValue

end Figure

/-- One statistic. -/
structure Record where
  opType : String
  measurement : String
  figure : Figure
  deriving Repr, DecidableEq

namespace Record

/-- A statistic whose figure is a count or an amount. -/
def long (opType measurement : String) (n : Int) : Record :=
  ⟨opType, measurement, .long n⟩

/-- The key that a sort and two names make. -/
def keyOf (form : Figure.Form) (opType measurement : String) : String :=
  String.ofList (form.letter :: ':' :: opType.toList ++ '*' :: measurement.toList)

/-- What a statistic is merged by. -/
def key (r : Record) : String :=
  keyOf r.figure.form r.opType r.measurement

/-- The text of the figure. -/
def text (r : Record) : Outcome String :=
  r.figure.toText

/-- The statistic as it appears in error texts. -/
def shown (r : Record) : Outcome String := do
  return s!"OperationOutput({r.key}={← r.text})"

/-- The sort and the names in a key: the sort stands before the first colon, the operation before
the first asterisk after it. -/
def readKey (key : String) : Outcome (Figure.Form × String × String) :=
  let bad := .error (.record (.badKey key))
  match Text.splitFirst ':' key.toList with
  | none => bad
  | some (code, rest) =>
      match Text.splitFirst '*' rest, Figure.Form.ofText? code with
      | some (opType, measurement), some form =>
          .ok (form, String.ofList opType, String.ofList measurement)
      | _, _ => bad

/-- The statistic with given sort and names, its figure read from a value. -/
def ofValue (form : Figure.Form) (opType measurement : String) (v : Value) : Outcome Record := do
  return ⟨opType, measurement, ← Figure.ofValue form v⟩

/-- Reads a statistic from its key and the value that goes with it. -/
def parse (key : String) (v : Value) : Outcome Record := do
  let (form, opType, measurement) ← readKey key
  ofValue form opType measurement v

/-- The sort that a text names. -/
def formOf (code : String) : Outcome Figure.Form :=
  match Figure.Form.ofText? code.toList with
  | some form => .ok form
  | none => .error (.record (.badType (Text.Quoted.encode code)))

/-- The refusal to merge a statistic with something given by its text. -/
def refuse {α : Type} (r : Record) (other : Outcome String) : Outcome α := do
  throw (.record (.notMergeable (← r.shown) (← other)))

/-- One statistic in the place of two with the same key, under the names of the first. -/
def merge (r s : Record) : Outcome Record :=
  if s.key = r.key then
    match r.figure.add s.figure with
    | some figure => .ok { r with figure }
    | none => r.refuse s.shown
  else r.refuse s.shown

/-- Whether two statistics have equal keys and equal figures. -/
def same (r s : Record) : Bool :=
  r.key = s.key && r.figure.same s.figure

end Record

end StorageLoad
