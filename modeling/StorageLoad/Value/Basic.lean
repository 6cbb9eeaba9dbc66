import StorageLoad.Numeric.Layout
import StorageLoad.Numeric.Literal
import StorageLoad.Numeric.Reckoning

/-!
Untyped values, as options and answers of a storage service come in: their text, their comparison
as keys, and their conversion to numbers.
-/

namespace StorageLoad

inductive Value where
  | null
  | bool (b : Bool)
  | int (n : Int)
  | real (x : Float)
  | text (s : String)
  | list (items : List Value)
  | tuple (items : List Value)
  /-- A mapping, in the order of its entries; keys are told apart by `Value.sameKey`. -/
  | map (entries : List (Value × Value))
  deriving Inhabited

namespace Value

/-- The name of the sort of a value, as error texts give it. -/
def sort : Value → String
  | null => "NoneType"
  | bool _ => "bool"
  | int _ => "int"
  | real _ => "float"
  | text _ => "str"
  | list _ => "list"
  | tuple _ => "tuple"
  | map _ => "dict"

/-- Whether an integer has too many digits to be written. -/
def isOversized (n : Int) : Bool :=
  10 ^ digitLimit ≤ n.natAbs

mutual

/-- Whether an integer somewhere in the value has too many digits to be written. -/
def hasOversized : Value → Bool
  | int n => isOversized n
  | list items => anyOversized items
  | tuple items => anyOversized items
  | map entries => anyEntryOversized entries
  | _ => false

def anyOversized : List Value → Bool
  | [] => false
  | v :: vs => hasOversized v || anyOversized vs

def anyEntryOversized : List (Value × Value) → Bool
  | [] => false
  | (k, v) :: es => hasOversized k || hasOversized v || anyEntryOversized es

end

mutual

/-- The written form of a value inside a container; texts are quoted. -/
def quoted : Value → String
  | null => "None"
  | bool b => if b then "True" else "False"
  | int n => toString n
  | real x => Layout.shortest x
  | text s => Text.Quoted.encode s
  | list items => "[" ++ ", ".intercalate (quotedAll items) ++ "]"
  | tuple [v] => "(" ++ quoted v ++ ",)"
  | tuple items => "(" ++ ", ".intercalate (quotedAll items) ++ ")"
  | map entries => "\x7b" ++ ", ".intercalate (quotedEntries entries) ++ "\x7d"

def quotedAll : List Value → List String
  | [] => []
  | v :: vs => quoted v :: quotedAll vs

def quotedEntries : List (Value × Value) → List String
  | [] => []
  | (k, v) :: es => (quoted k ++ ": " ++ quoted v) :: quotedEntries es

end

/-- The quoted form, where no integer is too long to be written. -/
def quoted? (v : Value) : Except NumberFault String :=
  if v.hasOversized then .error .tooLongToWrite else .ok v.quoted

/-- The text of a value: a text is its own, every other value is written as inside a container. -/
def toText? (v : Value) : Except NumberFault String :=
  match v with
  | text s => .ok s
  | v => v.quoted?

/-- Nothing, zero and the empty text or container count as false. -/
def isTruthy : Value → Bool
  | null => false
  | bool b => b
  | int n => n ≠ 0
  | real x => !(x == 0.0)
  | text s => !s.isEmpty
  | list items => !items.isEmpty
  | tuple items => !items.isEmpty
  | map entries => !entries.isEmpty

/-- A truth value counts as the integer zero or one. -/
def whole? : Value → Option Int
  | bool b => some (if b then 1 else 0)
  | int n => some n
  | _ => none

mutual

/-- Whether two values are the same key: numbers are compared by their value, whatever their
sort. -/
def sameKey : Value → Value → Bool
  | null, null => true
  | text s, text t => s = t
  | tuple vs, tuple ws => sameKeys vs ws
  | real x, real y => x == y
  | real x, w => w.whole?.any (Double.equalsInt x)
  | v, real y => v.whole?.any (Double.equalsInt y)
  | v, w =>
      match v.whole?, w.whole? with
      | some m, some n => m = n
      | _, _ => false

def sameKeys : List Value → List Value → Bool
  | [], [] => true
  | v :: vs, w :: ws => sameKey v w && sameKeys vs ws
  | _, _ => false

end

/-- Puts an entry into a mapping: a key that is present keeps its place and its spelling. -/
def putEntry (k v : Value) : List (Value × Value) → List (Value × Value)
  | [] => [(k, v)]
  | (l, w) :: es => if sameKey l k then (l, v) :: es else (l, w) :: putEntry k v es

/-- The mapping that results from putting the entries one after the other. -/
def ofEntries (entries : List (Value × Value)) : Value :=
  map (entries.foldl (fun es (k, v) => putEntry k v es) [])

/-- The value under a text key. -/
def lookup (name : String) : List (Value × Value) → Option Value
  | [] => none
  | (k, v) :: es => if sameKey k (text name) then some v else lookup name es

/-- The integer of a value: that of a number without its fraction, or the one a text spells. -/
def toInt : Value → Except NumberFault Int
  | bool b => .ok (if b then 1 else 0)
  | int n => .ok n
  | real x => Reckoning.truncate x
  | text s => Literal.integer s
  | v => .error (.noInteger v.sort)

/-- The real number of a value, as the nearest double. -/
def toReal : Value → Except NumberFault Float
  | bool b => .ok (if b then 1.0 else 0.0)
  | int n => Double.ofInt n
  | real x => .ok x
  | text s => Literal.real s
  | v => .error (.noReal v.sort)

/-- A number as it stands; a truth value counts as an integer. -/
def quantity? : Value → Option (Quantity Float)
  | bool b => some (.whole (if b then 1 else 0))
  | int n => some (.whole n)
  | real x => some (.real x)
  | _ => none

end Value

end StorageLoad
