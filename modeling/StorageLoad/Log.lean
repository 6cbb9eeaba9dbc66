import StorageLoad.Text.Line

/-!
Log lines and the levels from which on loggers show them.  A logger has its level from the nearest
logger above it that has one; which loggers stand above it is told by their names.
-/

namespace StorageLoad.Log

inductive Level where
  /-- Below all others; a logger with this level shows everything. -/
  | unset
  | debug
  | info
  | warning
  | error
  | critical
  deriving Repr, DecidableEq

namespace Level

def name : Level → String
  | unset => "NOTSET"
  | debug => "DEBUG"
  | info => "INFO"
  | warning => "WARNING"
  | error => "ERROR"
  | critical => "CRITICAL"

def all : List Level :=
  [unset, debug, info, warning, error, critical]

def rank : Level → Nat
  | unset => 0
  | debug => 10
  | info => 20
  | warning => 30
  | error => 40
  | critical => 50

/-- The second names of levels. -/
def synonyms : List (String × Level) :=
  [("WARN", warning), ("FATAL", critical)]

/-- The level with a name. -/
def ofName? (s : String) : Option Level :=
  (all.find? (·.name = s)).or (synonyms.lookup s)

theorem ofName?_name (l : Level) : ofName? l.name = some l := by
  cases l <;> decide

end Level

/-- The name of the logger above all others, which also answers to the empty name. -/
def rootName : String := "root"

/-- Whether a name is that of the logger above all others. -/
def isRoot (name : String) : Bool :=
  name.isEmpty || name = rootName

/-- One message of a logger. -/
structure Line where
  level : Level
  logger : String
  text : String
  deriving Repr, DecidableEq

namespace Line

/-- The line as it is shown, without its time. -/
def shown (l : Line) : String :=
  s!"{l.level.name} {if isRoot l.logger then rootName else l.logger}: {l.text}"

/-- The rows that a line takes where it is written. -/
def rows (l : Line) : List String :=
  (Text.lines (l.shown.toList ++ ['\n'])).map String.ofList

end Line

/-- What stands in a reversed name before a dot, each part reversed, the longest first.  A dot at
the front counts for nothing, and neither does one that another dot follows at once. -/
def partsAbove (reversed : List Char) : List (List Char) :=
  match _h : reversed.dropWhile (· ≠ '.') with
  | [] => []
  | [_] => []
  | _ :: c :: rest => (c :: rest) :: partsAbove rest
termination_by reversed.length
decreasing_by
  have hlen := (List.dropWhile_suffix (l := reversed) (· ≠ '.')).length_le
  rw [_h] at hlen
  simp only [List.length_cons] at hlen
  omega

/-- The names above a logger's, the nearest first. -/
def above (logger : String) : List String :=
  (partsAbove logger.toList.reverse).map fun part => String.ofList part.reverse

/-- The least level that is shown, and the loggers that show nothing below a warning. -/
structure Setup where
  level : Level
  quiet : List String

namespace Setup

/-- The level of the logger above all others. -/
def rootLevel (s : Setup) : Level :=
  if s.quiet.any isRoot then .warning else s.level

/-- The least level a logger shows, found in at most so many steps upwards from one known logger
to the next. -/
def threshold (s : Setup) (known : List String) : Nat → String → Level
  | 0, _ => s.rootLevel
  | steps + 1, logger =>
      if s.quiet.contains logger then .warning
      else
        match (above logger).find? known.contains with
        | some next => threshold s known steps next
        | none => s.rootLevel

/-- Whether a line is shown, given the loggers that are known. -/
def shows (s : Setup) (known : List String) (l : Line) : Bool :=
  0 < l.level.rank &&
    (s.threshold known (l.logger.length + 1) l.logger).rank ≤ l.level.rank

/-- The lines that are shown, given the loggers that are known; each line makes its own known. -/
def filterFrom (s : Setup) : List String → List Line → List Line
  | _, [] => []
  | known, l :: lines =>
      let known := if known.contains l.logger then known else l.logger :: known
      let shown := filterFrom s known lines
      if s.shows known l then l :: shown else shown

/-- The lines that are shown.  The quiet loggers are known from the start. -/
def filter (s : Setup) (lines : List Line) : List Line :=
  s.filterFrom s.quiet lines

end Setup

end StorageLoad.Log
