import StorageLoad.Clock
import StorageLoad.Journal
import StorageLoad.Random.Source

/-!
What a worker acts in: a storage service that answers calls, a clock that can be read, and a way
to sleep.  Nothing is assumed about the answers, so that what holds of workers in general holds
with every service and every clock.
-/

namespace StorageLoad

class Surroundings (σ : Type) where
  /-- The answer of the storage service, or its fault; `none` for a call that does not end. -/
  call : Request → σ → Option (Outcome Reply × σ)
  /-- The time in milliseconds. -/
  now : σ → Int × σ
  /-- Sleeps for some milliseconds. -/
  sleep : Int → σ → Outcome Unit × σ

/-- The surroundings of a worker with its source of random numbers and its journal, newest event
first. -/
structure Scene (σ ρ : Type) where
  world : σ
  random : ρ
  journal : List Event

/-- A course of events that cannot fail, but need not end. -/
abbrev Course (σ ρ α : Type) := StateT (Scene σ ρ) Option α

/-- A course of events that can also end with a fault. -/
abbrev Action (σ ρ α : Type) := ExceptT Fault (StateT (Scene σ ρ) Option) α

namespace Course

variable {σ ρ α : Type}

/-- A course that does not end. -/
def endless : Course σ ρ α :=
  fun _ => none

/-- Writes an event into the journal. -/
def note (e : Event) : Course σ ρ Unit :=
  modify fun s => { s with journal := e :: s.journal }

/-- Draws from the source of random numbers. -/
def draw (f : ρ → α × ρ) : Course σ ρ α :=
  modifyGet fun s => ((f s.random).1, { s with random := (f s.random).2 })

variable [Surroundings σ]

/-- Reads the clock. -/
def now : Course σ ρ Int :=
  modifyGet fun s =>
    ((Surroundings.now s.world).1, { s with world := (Surroundings.now s.world).2 })

/-- Reads the clock for the time since a moment. -/
def elapsed (start : Int) : Course σ ρ Int := do
  return Clock.elapsed start (← now)

end Course

namespace Action

variable {σ ρ α : Type}

/-- A course as an action that does not fail. -/
def ofCourse (course : Course σ ρ α) : Action σ ρ α :=
  ExceptT.lift course

def note (e : Event) : Action σ ρ Unit :=
  ofCourse (Course.note e)

def draw (f : ρ → α × ρ) : Action σ ρ α :=
  ofCourse (Course.draw f)

/-- Draws something that may turn out to be impossible. -/
def drawOutcome (f : ρ → Outcome α × ρ) : Action σ ρ α :=
  ExceptT.mk (Course.draw f)

variable [Surroundings σ]

def now : Action σ ρ Int :=
  ofCourse Course.now

def elapsed (start : Int) : Action σ ρ Int :=
  ofCourse (Course.elapsed start)

/-- The answer of the storage service, or its fault. -/
def call (request : Request) : Action σ ρ Reply :=
  ExceptT.mk fun s =>
    (Surroundings.call request s.world).map fun (answer, world) => (answer, { s with world })

/-- Calls the storage service. -/
def ask (request : Request) : Action σ ρ Reply := do
  note (.asked request)
  call request

/-- Sleeps, unless the time is too long for a number of seconds. -/
def sleep (ms : Int) : Action σ ρ Unit := do
  let _ ← (Clock.seconds ms : Except NumberFault Float)
  note (.slept ms)
  ExceptT.mk fun s =>
    let (answer, world) := Surroundings.sleep ms s.world
    some (answer, { s with world })

end Action

end StorageLoad
