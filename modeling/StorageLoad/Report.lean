import StorageLoad.Record

/-!
The report of a run: the merged statistics of every operation, and the rates that follow from the
time the operation took.
-/

namespace StorageLoad

namespace Measurement

/-! The names of measurements that operations, workers and reports share. -/

def timeTaken : String := "milliseconds_taken"
def failures : String := "failures"
def successes : String := "successes"
def bytesWritten : String := "bytes_written"
def bytesRead : String := "bytes_read"
def filesCreated : String := "files_created"
def dirsCreated : String := "dirs_created"
def dirEntries : String := "dir_entries"
def opCount : String := "op_count"
def chunksVerified : String := "chunks_verified"
def chunksUnverified : String := "chunks_unverified"
def notFound : String := "not_found"

end Measurement

/-- The figures of one operation by measurement, in ascending order. -/
structure Section where
  name : String
  figures : List (String × Figure)

/-- The statistics of a run, one section for each operation, in ascending order. -/
structure Report where
  sections : List Section

namespace Report

/-- A rate that is reported for a measurement: its label, and the unit it is reckoned in. -/
structure Rate where
  measurement : String
  label : String
  unit : Float

def mebibyte : Float := 1048576.0

def rates : List Rate :=
  [⟨Measurement.successes, "Successes per second", 1.0⟩,
    ⟨Measurement.opCount, "Operations per second", 1.0⟩,
    ⟨Measurement.bytesWritten, "Megabytes written per second", mebibyte⟩,
    ⟨Measurement.bytesRead, "Megabytes read per second", mebibyte⟩,
    ⟨Measurement.filesCreated, "Files created per second", 1.0⟩,
    ⟨Measurement.dirEntries, "Directory entries per second", 1.0⟩]

/-- The order of statistics: by operation, then by measurement, both by code points. -/
def upTo (r s : Record) : Bool :=
  if r.opType = s.opType then Text.upTo r.measurement s.measurement
  else Text.upTo r.opType s.opType

/-- Adds a figure at the end of a section; the last measurement is replaced if it is the same. -/
def addFigure (measurement : String) (figure : Figure) :
    List (String × Figure) → List (String × Figure)
  | [] => [(measurement, figure)]
  | [(m, f)] =>
      if m = measurement then [(m, figure)] else [(m, f), (measurement, figure)]
  | entry :: entries => entry :: addFigure measurement figure entries

/-- Adds an ordered statistic to the sections before it. -/
def addRecord (r : Record) : List Section → List Section
  | [] => [⟨r.opType, [(r.measurement, r.figure)]⟩]
  | [s] =>
      if s.name = r.opType then [{ s with figures := addFigure r.measurement r.figure s.figures }]
      else [s, ⟨r.opType, [(r.measurement, r.figure)]⟩]
  | s :: sections => s :: addRecord r sections

/-- The report of statistics in any order; of two for the same measurement the later one
counts. -/
def ofRecords (records : List Record) : Report :=
  ⟨(records.mergeSort upTo).foldl (fun sections r => addRecord r sections) []⟩

/-- The figures of an operation; none for one without statistics. -/
def figures (report : Report) (name : String) : List (String × Figure) :=
  match report.sections.find? (·.name = name) with
  | some s => s.figures
  | none => []

/-- A figure that is a number. -/
def number (f : Figure) : Outcome (Quantity Float) :=
  f.toValue.toQuantity

/-- The value of one rate, for a measurement of an operation that took some time. -/
def rateOf (rate : Rate) (figure : Figure) (time : Quantity Float) : Outcome Float := do
  let amount ← (← number figure).toReal
  let seconds := (← time.toReal) / 1000.0
  if seconds == 0.0 then throw .noTime else return amount / rate.unit / seconds

/-- Whether a time is no longer than nothing. -/
def isOver : Quantity Float → Bool
  | .whole n => n ≤ 0
  | .real x => x ≤ 0.0

/-- The rates that follow from an operation's figures; none where it took no time. -/
def ratesOf (figures : List (String × Figure)) : Outcome (List (String × Float)) := do
  let time ← number ((figures.lookup Measurement.timeTaken).getD (.long 0))
  if isOver time then return []
  else
    rates.filterMapM fun rate =>
      match figures.lookup rate.measurement with
      | some figure => do return some (rate.label, ← rateOf rate figure time)
      | none => return none

namespace Section

/-- The lines of a section: its name, its figures, its rates with three places. -/
def lines (s : Section) : Outcome (List String) := do
  let figures ← s.figures.mapM fun (measurement, figure) => do
    return s!"  {measurement} = {← figure.toText}"
  let rates ← ratesOf s.figures
  return ("Operation \"" ++ s.name ++ "\"") :: figures ++
    rates.map fun (label, rate) => s!"  {label} = {Layout.fixed 3 rate}"

end Section

/-- The report as a text, every line ended. -/
def text (report : Report) : Outcome String := do
  let lines ← report.sections.mapM Section.lines
  return String.join (lines.flatten.map (· ++ "\n"))

end Report

end StorageLoad
