import StorageLoad.Text.Casing

/-!
The kinds of operation a worker can run.
-/

namespace StorageLoad

inductive Kind where
  | create
  | append
  | delete
  | rename
  | setReplication
  | read
  | ls
  | mkdir
  | sleep
  deriving Repr, DecidableEq

namespace Kind

def name : Kind → String
  | create => "create"
  | append => "append"
  | delete => "delete"
  | rename => "rename"
  | setReplication => "set_replication"
  | read => "read"
  | ls => "ls"
  | mkdir => "mkdir"
  | sleep => "sleep"

def all : List Kind :=
  [create, append, delete, rename, setReplication, read, ls, mkdir, sleep]

/-- The kinds that can be weighted and selected: all but the pause between operations. -/
def selectable : List Kind :=
  all.filter (· ≠ sleep)

theorem mem_selectable_iff {k : Kind} : k ∈ selectable ↔ k ≠ sleep := by
  cases k <;> decide

theorem name_injective {k l : Kind} (h : k.name = l.name) : k = l := by
  cases k <;> cases l <;> first | rfl | exact absurd h (by decide)

/-- The kind with a given name. -/
def ofName? (s : String) : Option Kind :=
  all.find? (·.name = s)

theorem ofName?_name (k : Kind) : ofName? k.name = some k := by
  cases k <;> decide

/-- The kind a text names, in any case. -/
def ofText? (s : String) : Option Kind :=
  all.find? fun k => Text.isWord k.name s

end Kind

end StorageLoad
