import StorageLoad.Kind
import StorageLoad.Store.Fault
import StorageLoad.Value.Items

/-!
Everything that can go wrong, each as its cause, with one text per cause.
-/

namespace StorageLoad

/-- The families of faults that callers tell apart. -/
inductive FaultClass where
  /-- An option that is refused. -/
  | option
  /-- A failure reported by the storage service. -/
  | storage
  /-- The storage service knows no such path. -/
  | notFound
  /-- Read bytes are not what was written. -/
  | verification
  | value
  | type
  | overflow
  | attribute
  | key
  | index
  | assertion
  | unimplemented
  | runtime
  | system
  | notDirectory
  | isDirectory
  | fileExists
  | memory
  /-- A malformed option document. -/
  | markup
  | missingFile
  /-- A failure to pack a number into its field. -/
  | packing
  | zeroDivision
  deriving Repr, DecidableEq

/-- Why an option or a setting is refused. -/
inductive OptionFault where
  | rangeOrder (lower upper : Int)
  | missingFields (names : List String)
  | badSize (text : String)
  | badRange (text : String)
  | rangeTooLow (text : String) (minimum : Int)
  | badBool (text : String)
  | badValue (name quoted : String)
  | notFinite (name text : String)
  | negative (name text : String)
  | tooLarge (name maximum text : String)
  | tooSmall (name : String) (minimum number : Int)
  | notMapping (path : String)
  | unknownOptions (names : List String)
  | bothCurves (kind : Kind)
  | operationsNotMapping
  | unknownKind (text : String)
  | notSelectable (text : String)
  | unknownSettings (kind : Kind) (names : List String)
  deriving Repr, DecidableEq

/-- Why a weight curve cannot be built; numbers are given by their text. -/
inductive CurveFault where
  | negativeWeight (text : String)
  | fractionOutside (text : String)
  | noPoints
  | unknownName (text : String)
  deriving Repr, DecidableEq

/-- Why a statistic cannot be read or merged. -/
inductive RecordFault where
  | badKey (key : String)
  | badType (quoted : String)
  /-- Two things that are not the same statistic, each by its text. -/
  | notMergeable (left right : String)
  deriving Repr, DecidableEq

/-- Why stored bytes fail verification. -/
inductive SegmentFault where
  | badHeader (offset length : Nat)
  | mismatch (offset : Nat)
  deriving Repr, DecidableEq

inductive Fault where
  | number (cause : NumberFault)
  | shape (cause : ShapeFault)
  | option (cause : OptionFault)
  /-- An end of a range that cannot be read. -/
  | rangeEnd (text : String) (cause : Fault)
  /-- A weight curve of an operation that cannot be built. -/
  | curveOf (kind : Kind) (cause : Fault)
  | curve (cause : CurveFault)
  | record (cause : RecordFault)
  | segment (cause : SegmentFault)
  | store (cause : StoreFault)
  /-- A moment before the start of a run, or a negative duration. -/
  | negativeTime (elapsed duration : String)
  /-- A pause without a configured range of lengths. -/
  | noPauseRange
  /-- A number that a header has no room for, such as the length of too long a segment. -/
  | segmentTooLong
  /-- A place beyond the bytes there are. -/
  | noByte
  /-- A number that is no byte. -/
  | badByte
  /-- A namespace without files or with directories that hold none. -/
  | emptyNamespace
  /-- A weight curve that has no rule. -/
  | noRule
  /-- A configuration is never changed. -/
  | readOnly
  | malformedDocument
  | noSuchFile
  /-- A path with which the host cannot do what is needed. -/
  | host (cause : Obstacle) (path : String)
  /-- A number of worker processes below zero. -/
  | noProcesses
  /-- A time so short that a second's share of it is zero. -/
  | noTime
  /-- A limit to be derived where no percentage is given. -/
  | noPercent
  /-- A name of no kind, given quoted. -/
  | badKind (quoted : String)
  /-- A fault brought in from the surroundings, with its text. -/
  | reported (family : FaultClass) (text : String)
  deriving Repr

namespace OptionFault

def message : OptionFault → String
  | rangeOrder lower upper => s!"Invalid range: {lower} > {upper}"
  | missingFields names => "Missing fields: " ++ ", ".intercalate names
  | badSize text => s!"Invalid size '{text}'"
  | badRange text => s!"Invalid range '{text}'"
  | rangeTooLow text minimum => s!"Invalid range '{text}': values must be >= {minimum}"
  | badBool text => s!"Invalid boolean '{text}'"
  | badValue name quoted => s!"Invalid value for '{name}': {quoted}"
  | notFinite name text => s!"'{name}' must be finite, got {text}"
  | negative name text => s!"'{name}' must be >= 0, got {text}"
  | tooLarge name maximum text => s!"'{name}' must be <= {maximum}, got {text}"
  | tooSmall name minimum number => s!"'{name}' must be >= {minimum}, got {number}"
  | notMapping path => s!"Config file {path} must contain a mapping"
  | unknownOptions names => "Unknown options: " ++ ", ".intercalate names
  | bothCurves kind => s!"{kind.name}: give either 'distribution' or 'curve', not both"
  | operationsNotMapping => "'operations' must be a mapping of kind to settings"
  | unknownKind text => s!"Unknown operation kind '{text}'"
  | notSelectable text => s!"'{text}' cannot be selected, use 'sleep' for pacing"
  | unknownSettings kind names =>
      s!"{kind.name}: unknown settings " ++ ", ".intercalate names

end OptionFault

namespace CurveFault

def message : CurveFault → String
  | negativeWeight text => s!"Weight must be non-negative, got {text}"
  | fractionOutside text => s!"Breakpoint fraction {text} outside [0, 1]"
  | noPoints => "Piecewise weight needs at least one breakpoint"
  | unknownName text =>
      s!"Unknown distribution '{text}', expected one of beg, end, mid, uniform"

end CurveFault

namespace RecordFault

def message : RecordFault → String
  | badKey key => s!"Malformed output key '{key}'"
  | badType quoted => s!"{quoted} is not a valid OutputType"
  | notMergeable left right => s!"Cannot merge {left} with {right}"

end RecordFault

namespace SegmentFault

def message : SegmentFault → String
  | badHeader offset length => s!"Bad segment header at offset {offset} (length {length})"
  | mismatch offset => s!"Segment at offset {offset} does not match its seed"

end SegmentFault

namespace NumberFault

def family : NumberFault → FaultClass
  | noInteger _ => .type
  | noReal _ => .type
  | infinityToInteger => .overflow
  | tooLargeForReal => .overflow
  | quotientTooLarge => .overflow
  | _ => .value

end NumberFault

namespace ShapeFault

def family : ShapeFault → FaultClass
  | tooFewItems _ => .value
  | tooManyItems => .value
  | entryLength _ _ => .value
  | notMapping _ => .attribute
  | _ => .type

end ShapeFault

namespace Obstacle

def family : Obstacle → FaultClass
  | missing => .missingFile
  | notDirectory => .notDirectory
  | isDirectory => .isDirectory
  | isThere => .fileExists
  | tooLong => .system
  | unusable => .value

end Obstacle

namespace StoreFault

def family : StoreFault → FaultClass
  | notFound _ => .notFound
  | entryGone _ => .key
  | negativeLength => .value
  | lengthTooLarge => .overflow
  | noMemory => .memory
  | badLength cause => cause.family
  | unusablePath => .value
  | unimplemented => .unimplemented
  | _ => .storage

end StoreFault

namespace Fault

def family : Fault → FaultClass
  | number cause => cause.family
  | shape cause => cause.family
  | option _ => .option
  | rangeEnd _ _ => .option
  | curveOf _ _ => .option
  | curve _ => .value
  | record _ => .value
  | segment _ => .verification
  | store cause => cause.family
  | negativeTime _ _ => .value
  | noPauseRange => .value
  | segmentTooLong => .packing
  | noByte => .index
  | badByte => .value
  | emptyNamespace => .assertion
  | noRule => .unimplemented
  | readOnly => .attribute
  | malformedDocument => .markup
  | noSuchFile => .missingFile
  | host cause _ => cause.family
  | noProcesses => .value
  | noTime => .zeroDivision
  | noPercent => .index
  | badKind _ => .value
  | reported family _ => family

def message : Fault → String
  | number cause => cause.message
  | shape cause => cause.message
  | option cause => cause.message
  | rangeEnd text cause => s!"Invalid range '{text}': {cause.message}"
  | curveOf kind cause => s!"{kind.name}: {cause.message}"
  | curve cause => cause.message
  | record cause => cause.message
  | segment cause => cause.message
  | store cause => cause.message
  | negativeTime elapsed duration =>
      s!"Elapsed and duration must be >= 0 (got {elapsed}, {duration})"
  | noPauseRange => "SleepOp requires a configured sleep range"
  | segmentTooLong => "int too large to convert"
  | noByte => "no byte at that place"
  | badByte => "byte must be in range(0, 256)"
  | emptyNamespace => ""
  | noRule => ""
  | readOnly => "SliveConfig is read-only"
  | malformedDocument => "malformed document"
  | noSuchFile => "no such file"
  | host cause path => cause.message (Text.Quoted.encode path)
  | noProcesses => "Number of processes must be at least 1"
  | noTime => "float division by zero"
  | noPercent => "list index out of range"
  | badKind quoted => s!"{quoted} is not a valid Kind"
  | reported .notFound text => "No such file or directory: " ++ text
  | reported .key text => Text.Quoted.encode text
  | reported _ text => text

/-- Whether the fault is one of a value or of its sort, which a reader of options turns into a
refused option. -/
def isBadInput (f : Fault) : Bool :=
  match f.family with
  | .option | .value | .type => true
  | _ => false

/-- Whether the fault is a refused option or another bad value, which a worker's setup reports. -/
def isBadValue (f : Fault) : Bool :=
  match f.family with
  | .option | .value => true
  | _ => false

end Fault

/-- Results that carry a fault when there is none. -/
abbrev Outcome (α : Type) := Except Fault α

namespace Outcome

variable {α β : Type} {answer : Outcome α}

theorem exists_of_bind {next : α → Outcome β} {b : β} (h : answer >>= next = .ok b) :
    ∃ a, answer = .ok a ∧ next a = .ok b := by
  cases answer with
  | error fault => cases h
  | ok a => exact ⟨a, rfl, h⟩

theorem error_of_bind {next : α → Outcome β} {fault : Fault}
    (h : answer >>= next = .error fault) :
    answer = .error fault ∨ ∃ a, answer = .ok a ∧ next a = .error fault := by
  cases answer with
  | error cause => exact Or.inl (congrArg Except.error (Except.error.inj h))
  | ok a => exact Or.inr ⟨a, rfl, h⟩

theorem eq_ok_of_toOption {a : α} (h : answer.toOption = some a) : answer = .ok a := by
  cases answer with
  | error fault => cases h
  | ok b => exact congrArg Except.ok (Option.some.inj h)

theorem exists_of_mapM {f : α → Outcome β} {as : List α} {bs : List β} (h : as.mapM f = .ok bs) :
    ∀ b ∈ bs, ∃ a ∈ as, f a = .ok b := by
  induction as generalizing bs with
  | nil =>
      obtain rfl := Except.ok.inj h
      simp
  | cons a as ih =>
      rw [List.mapM_cons] at h
      obtain ⟨b, hb, h⟩ := exists_of_bind h
      obtain ⟨rest, hrest, h⟩ := exists_of_bind h
      obtain rfl := Except.ok.inj h
      intro c hc
      rcases List.mem_cons.mp hc with rfl | hc
      · exact ⟨a, List.mem_cons_self, hb⟩
      · obtain ⟨d, hd, hdc⟩ := ih hrest c hc
        exact ⟨d, List.mem_cons_of_mem a hd, hdc⟩

end Outcome

instance : MonadLift (Except NumberFault) (Except Fault) where
  monadLift r := r.mapError .number

instance : MonadLift (Except ShapeFault) (Except Fault) where
  monadLift r := r.mapError .shape

/-- The fault, unless one of the integers in its text is too long to be written. -/
def Fault.writing (numbers : List Int) (f : Fault) : Fault :=
  if numbers.any Value.isOversized then .number .tooLongToWrite else f

theorem Fault.writing_eq {numbers : List Int} (h : ∀ n ∈ numbers, Value.isOversized n = false)
    (f : Fault) :
    writing numbers f = f := by
  have hany : numbers.any Value.isOversized = false :=
    List.any_eq_false.mpr fun n hn => by simp [h n hn]
  rw [writing, hany]
  rfl

/-- The text of an integer, where it is not too long to be written. -/
def integerText (n : Int) : Outcome String :=
  if Value.isOversized n then .error (.number .tooLongToWrite) else .ok (toString n)

namespace Value

/-- The text of a value, as a step of a computation that can fail in other ways. -/
def toTextOutcome (v : Value) : Outcome String :=
  v.toText?.mapError .number

/-- A number as it stands; texts and other values are no numbers. -/
def toQuantity (v : Value) : Outcome (Quantity Float) :=
  match v.quantity? with
  | some q => .ok q
  | none => .error (.shape (.notNumber v.sort))

end Value

end StorageLoad
