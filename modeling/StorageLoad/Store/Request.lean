import StorageLoad.Fault
import StorageLoad.Segment

/-!
The calls a storage service answers, and the answers.
-/

namespace StorageLoad

inductive Request where
  | create (path : Path) (data : Bytes) (replication blockSize : Value)
  | append (path : Path) (data : Bytes)
  /-- The first bytes of a file; all of them if the length is nothing. -/
  | read (path : Path) (length : Value)
  | delete (path : Path)
  | rename (source target : Path)
  | setReplication (path : Path) (factor : Value)
  | getReplication (path : Path)
  | listdir (path : Path)
  | mkdirs (path : Path)
  | isStored (path : Path)

/-- The names of the calls. -/
inductive Method where
  | create
  | append
  | read
  | delete
  | rename
  | setReplication
  | getReplication
  | listdir
  | mkdirs
  | isStored
  deriving Repr, DecidableEq

namespace Method

def name : Method → String
  | create => "create"
  | append => "append"
  | read => "read"
  | delete => "delete"
  | rename => "rename"
  | setReplication => "set_replication"
  | getReplication => "get_replication"
  | listdir => "listdir"
  | mkdirs => "mkdirs"
  | isStored => "exists"

end Method

namespace Request

def method : Request → Method
  | create .. => .create
  | append .. => .append
  | read .. => .read
  | delete _ => .delete
  | rename .. => .rename
  | setReplication .. => .setReplication
  | getReplication _ => .getReplication
  | listdir _ => .listdir
  | mkdirs _ => .mkdirs
  | isStored _ => .isStored

/-- The arguments as values, bytes by their number. -/
def arguments : Request → List Value
  | create path data replication blockSize =>
      [.text path.toText, .int data.length, replication, blockSize]
  | append path data => [.text path.toText, .int data.length]
  | read path .null => [.text path.toText]
  | read path length => [.text path.toText, length]
  | delete path => [.text path.toText]
  | rename source target => [.text source.toText, .text target.toText]
  | setReplication path factor => [.text path.toText, factor]
  | getReplication path => [.text path.toText]
  | listdir path => [.text path.toText]
  | mkdirs path => [.text path.toText]
  | isStored path => [.text path.toText]

/-- The call as one line, unless an argument is too long to be written. -/
def line? (r : Request) : Except NumberFault String := do
  return " ".intercalate (r.method.name :: (← r.arguments.mapM Value.toText?))

end Request

/-- An answer: bytes that were read, or any other value. -/
inductive Reply where
  | bytes (data : Bytes)
  | value (v : Value)

namespace Reply

def yes : Reply := .value (.bool true)

def no : Reply := .value (.bool false)

def int (n : Int) : Reply := .value (.int n)

def isTruthy : Reply → Bool
  | bytes data => !data.isEmpty
  | value v => v.isTruthy

def length : Reply → Except ShapeFault Nat
  | bytes data => .ok data.length
  | value v => v.length

/-- The answer as an integer; bytes are read as a text. -/
def toInt : Reply → Except NumberFault Int
  | bytes data => Literal.integer (String.ofList (data.map fun b => Char.ofNat b.toNat))
  | value v => v.toInt

/-- Whether the answer is a number that equals `n`. -/
def isInt (n : Int) : Reply → Bool
  | bytes _ => false
  | value v => Value.sameKey v (.int n)

/-- What verification finds in the answer.  An answer that is no bytes is looked at only as far as
its length: a header's worth of it would have to be read. -/
def verify : Reply → Outcome Segment.Verdict
  | bytes data => (Segment.verify data).mapError .segment
  | value v =>
      match v.length with
      | .error cause => .error (.shape cause)
      | .ok 0 => .ok ⟨0, 0, 0⟩
      | .ok count =>
          if count < Segment.headerLength then .ok ⟨count, 0, 1⟩
          else .error (.shape (.notBytes v.sort))

end Reply

end StorageLoad
