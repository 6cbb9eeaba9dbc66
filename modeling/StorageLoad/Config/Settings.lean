import StorageLoad.Config.Curve
import StorageLoad.Config.Range

/-!
A complete configuration, and the operations it lets a worker select.
-/

namespace StorageLoad

/-- One selectable operation: its percentage, its weight curve and the most times it may be
selected. -/
structure Spec (𝕜 : Type) where
  kind : Kind
  percent : 𝕜
  curve : Curve 𝕜
  maxCount : Option Int
  deriving Repr, DecidableEq

namespace Spec

variable {𝕜 : Type} [Add 𝕜] [Sub 𝕜] [Mul 𝕜] [Div 𝕜] [LE 𝕜] [LT 𝕜] [BEq 𝕜] [OfScientific 𝕜]
  [DecidableLE 𝕜] [DecidableLT 𝕜]

/-- The weight at a fraction of the run. -/
def weight (s : Spec 𝕜) (fraction : 𝕜) : 𝕜 :=
  s.percent * s.curve.weight fraction

end Spec

/-- The text of something that may be missing. -/
def optionalText {α : Type} (text : α → Outcome String) : Option α → Outcome String
  | some a => text a
  | none => .ok "None"

/-- The weight at a number of any sort. -/
def Spec.weightAt (s : Spec Float) (fraction : Value) : Outcome Float :=
  (s.curve.weightAt fraction).map (s.percent * ·)

def Spec.text (s : Spec Float) : Outcome String := do
  let limit ← optionalText integerText s.maxCount
  let weight := Layout.shortest s.percent
  return s!"{s.kind.name}(weight={weight}, curve={s.curve.text}, max_count={limit})"

structure Settings (𝕜 : Type) where
  durationMs : Int
  seed : Option Int
  /-- The lengths of the pauses between operations, in milliseconds. -/
  pause : Option Range
  exitOnError : Bool
  totalOps : Option Int
  operations : List (Spec 𝕜)
  baseDir : String
  fileCount : Int
  dirSize : Int
  blockSize : Range
  writeSize : Range
  appendSize : Range
  readSize : Range
  replication : Range
  pollMs : Int
  timeoutMs : Int
  workers : Int
  resultFile : Option String
  deriving Repr, DecidableEq

namespace Settings

/-- The first operation of a kind. -/
def spec? {𝕜 : Type} (c : Settings 𝕜) (kind : Kind) : Option (Spec 𝕜) :=
  c.operations.find? (·.kind = kind)

/-- The names of the fields, in the order in which they are listed. -/
def fieldNames : List String :=
  ["duration_ms", "random_seed", "sleep_range", "exit_on_error", "total_ops", "operations",
    "base_dir", "file_count", "dir_size", "block_size", "write_size", "append_size", "read_size",
    "replication", "replication_poll_ms", "replication_timeout_ms", "workers", "result_file"]

/-- The values of the fields in their order, out of named ones; every field has to be there. -/
def fieldsInOrder (given : List (String × Value)) : Outcome (List Value) :=
  let missing := fieldNames.filter fun name => !given.any (·.1 = name)
  if missing.isEmpty then
    .ok (fieldNames.filterMap fun name => (given.find? (·.1 = name)).map (·.2))
  else .error (.option (.missingFields (missing.mergeSort Text.upTo)))

/-- What is listed of a configuration, with its texts. -/
def entries (c : Settings Float) : List (String × Outcome String) :=
  [("duration_ms = ", integerText c.durationMs),
    ("random_seed = ", optionalText integerText c.seed),
    ("sleep_range = ", optionalText Range.text? c.pause),
    ("exit_on_error = ", .ok (if c.exitOnError then "True" else "False")),
    ("total_ops = ", optionalText integerText c.totalOps)] ++
  (c.operations.map fun spec => ("operation ", spec.text)) ++
  [("base_dir = ", .ok c.baseDir),
    ("file_count = ", integerText c.fileCount),
    ("dir_size = ", integerText c.dirSize),
    ("block_size = ", c.blockSize.text?),
    ("write_size = ", c.writeSize.text?),
    ("append_size = ", c.appendSize.text?),
    ("read_size = ", c.readSize.text?),
    ("replication = ", c.replication.text?),
    ("replication_poll_ms = ", integerText c.pollMs),
    ("replication_timeout_ms = ", integerText c.timeoutMs),
    ("workers = ", integerText c.workers),
    ("result_file = ", optionalText .ok c.resultFile)]

/-- The lines that list a configuration; one with an integer that is too long cannot be
written. -/
def lines (c : Settings Float) : List (Outcome String) :=
  c.entries.map fun (label, text) => text.map (label ++ ·)

end Settings

end StorageLoad
