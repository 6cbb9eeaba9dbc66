import StorageLoad.Config.Reading
import StorageLoad.Config.Settings
import StorageLoad.Config.Shares

/-!
From untyped options to a complete configuration.  Options that are not known are refused, missing
ones have defaults.
-/

namespace StorageLoad

/-- Named options, in the order they were given in. -/
abbrev Options := List (Value × Value)

namespace Options

/-- The names of all options. -/
def names : List String :=
  ["duration", "seed", "sleep", "exit_on_error", "ops", "operations", "base_dir", "files",
    "dir_size", "block_size", "write_size", "append_size", "read_size", "replication",
    "replication_poll", "replication_timeout", "workers", "result_file"]

/-- The names of the settings of one operation. -/
def settingNames : List String :=
  ["percent", "distribution", "curve", "max_count"]

/-- The options in a value: nothing, zero and whatever is empty stand for no options. -/
def ofValue (v : Value) : Outcome Options :=
  if v.isTruthy then v.entries.mapError .shape else .ok []

/-- The keys that are none of the names, in order; they can be put in order only if all are
texts. -/
def unknown (names : List String) (entries : Options) : Outcome (List String) :=
  let keys := (entries.map (·.1)).filter fun k => !names.any fun name => k.sameKey (.text name)
  let texts := keys.filterMap fun
    | .text s => some s
    | _ => none
  if texts.length < keys.length then .error (.shape .namesNotText)
  else .ok (texts.mergeSort Text.upTo)

/-- The value of an option that is given and not null. -/
def get? (options : Options) (name : String) : Option Value :=
  match Value.lookup name options with
  | some .null => none
  | found => found

/-- The value of an option, or a default. -/
def getD (options : Options) (name : String) (default : Value) : Value :=
  (options.get? name).getD default

/-- Reads an option that may be left out. -/
def readIf {α : Type} (options : Options) (name : String) (read : Value → Outcome α) :
    Outcome (Option α) :=
  match options.get? name with
  | some v => do return some (← read v)
  | none => .ok none

/-- A range given by its two ends. -/
def ends (lower upper : Int) : Value :=
  .tuple [.int lower, .int upper]

def mebibyte : Int := 1048576

/-- The breakpoints of a curve setting: pairs of a number and a weight. -/
def breakpoints (kind : Kind) (v : Value) : Outcome (List (Breakpoint Float)) := do
  (← v.items).mapM fun item => do
    let (x, y) ← item.pair
    return ⟨← x.toReal, ← Config.number (kind.name ++ ".curve") none y⟩

/-- The weight curve of an operation: a named one, or one given by breakpoints, but not both. -/
def curve (kind : Kind) (settings : Options) : Outcome (Curve Float) :=
  let named := Value.lookup "distribution" settings
  let given := Value.lookup "curve" settings
  if named.isSome ∧ given.isSome then .error (.option (.bothCurves kind))
  else
    let built : Outcome (Curve Float) :=
      match given with
      | some v => do
          (Curve.ofPoints (← breakpoints kind v)).mapError .curve
      | none => do
          (Curve.ofName (← (named.getD (.text "uniform")).toText?)).mapError .curve
    built.mapError fun cause => if cause.isBadInput then .curveOf kind cause else cause

/-- The kind and the settings of one entry of the operations; settings that are no mapping are the
percentage. -/
def operation (entry : Value × Value) : Outcome (Kind × Options) := do
  let name ← entry.1.toText?
  match Kind.ofText? name with
  | none => throw (.option (.unknownKind name))
  | some kind =>
      if kind = .sleep then throw (.option (.notSelectable name))
      else
        let settings : Options := match entry.2 with
          | .null => []
          | .map settings => settings
          | v => [(.text "percent", v)]
        let extra ← unknown settingNames settings
        if extra.isEmpty then return (kind, settings)
        else throw (.option (.unknownSettings kind extra))

/-- The percentages of all operations; those without one share what the others leave of a
hundred. -/
def percents (entries : List (Kind × Options)) : Outcome (List Float) := do
  let given ← entries.mapM fun (kind, settings) =>
    settings.readIf "percent" (Config.number (kind.name ++ ".percent") (some (.whole 100)))
  let total := (given.filterMap id).foldl (· + ·) 0.0
  let missing := given.countP Option.isNone
  let left := if 0.0 < 100.0 - total then 100.0 - total else 0.0
  let share := left / (← Double.ofInt missing)
  return given.map (·.getD share)

/-- The selectable operations. -/
def operations (options : Options) (totalOps : Option Int) : Outcome (List (Spec Float)) := do
  let raw := options.getD "operations"
    (.map (Kind.selectable.map fun kind => (.text kind.name, .map [])))
  match raw with
  | .map raw =>
      let entries ← raw.mapM operation
      let percents ← percents entries
      let given ← entries.mapM fun (kind, settings) =>
        settings.readIf "max_count" (Config.int (kind.name ++ ".max_count") 0)
      let limits ← match totalOps with
        | some total => do pure ((← Shares.limits total (percents.map .real) given).map some)
        | none => pure given
      (entries.zip (percents.zip limits)).mapM fun ((kind, settings), percent, maxCount) => do
        return { kind, percent, curve := ← curve kind settings, maxCount }
  | _ => throw (.option .operationsNotMapping)

/-- The length of a run in whole milliseconds. -/
def durationMs (options : Options) : Outcome Int := do
  let seconds ← Config.number "duration" none (options.getD "duration" (.int 10))
  (Reckoning.round (seconds * 1000.0)).mapError .number

/-- The configuration that options stand for. -/
def settings (options : Options) : Outcome (Settings Float) := do
  let extra ← unknown names options
  if !extra.isEmpty then throw (.option (.unknownOptions extra))
  let sizes (name : String) (default : Int) : Outcome Range :=
    Config.range Config.size 0 (options.getD name (ends default default))
  let totalOps ← options.readIf "ops" (Config.int "ops" 0)
  let blockSize ← sizes "block_size" (64 * mebibyte)
  let writeSize ← sizes "write_size" (64 * mebibyte)
  let appendSize ← sizes "append_size" mebibyte
  let readSize ← sizes "read_size" (64 * mebibyte)
  return {
    durationMs := ← options.durationMs
    seed := ← options.readIf "seed" (Config.int "seed" (-2 ^ 63))
    pause := ← options.readIf "sleep" (Config.range Config.integer 0)
    exitOnError := ← Config.bool (options.getD "exit_on_error" (.bool false))
    totalOps
    operations := ← options.operations totalOps
    baseDir := ← (options.getD "base_dir" (.text "/test/slive")).toText?
    fileCount := ← Config.int "files" 1 (options.getD "files" (.int 10))
    dirSize := ← Config.int "dir_size" 1 (options.getD "dir_size" (.int 32))
    blockSize, writeSize, appendSize, readSize
    replication := ← Config.range Config.integer 1 (options.getD "replication" (ends 1 3))
    pollMs := ← Config.int "replication_poll" 1 (options.getD "replication_poll" (.int 100))
    timeoutMs := ←
      Config.int "replication_timeout" 0 (options.getD "replication_timeout" (.int 60000))
    workers := ← Config.int "workers" 1 (options.getD "workers" (.int 10))
    resultFile := ← options.readIf "result_file" Value.toTextOutcome
  }

/-- The options, with every given override that is not null in its place. -/
def override (options overrides : Options) : Options :=
  overrides.foldl (fun merged (name, v) =>
    match v with
    | .null => merged
    | v => Value.putEntry name v merged) options

end Options

end StorageLoad
