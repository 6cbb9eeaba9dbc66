import StorageLoad.Config.Options
import StorageLoad.Operation
import StorageLoad.Selector

/-!
The loop of a worker: select an operation, run it, pause, until the time is up, no operation is
left, or one fails that must not.
-/

namespace StorageLoad

namespace Worker

/-- The logger of workers. -/
def logger : String := "slive.worker"

/-- The name under which a worker reports on itself. -/
def opType : String := "worker"

/-- A way to select operations: what it remembers at first, and the answer for a time since the
start and a duration, with what it remembers and the source of random numbers afterwards. -/
structure Policy (τ ρ : Type) where
  initial : τ
  choose : Int → Int → τ → ρ → Outcome (Option Kind) × τ × ρ

/-- How far a worker has come. -/
structure Progress (τ : Type) where
  /-- The operations that were selected. -/
  operations : Nat
  pauses : Nat
  memory : τ

def Progress.start {τ ρ : Type} (policy : Policy τ ρ) : Progress τ :=
  { operations := 0, pauses := 0, memory := policy.initial }

/-- What follows on one round of the loop. -/
inductive Next where
  | again
  | stop (ending : Ending)

/-- What follows on a failure: the next round, unless the first failure ends the run. -/
def afterFailure {𝕜 : Type} (c : Settings 𝕜) : Next :=
  if c.exitOnError then .stop .aborted else .again

variable {σ ρ τ 𝕜 : Type} [RandomSource ρ] [Surroundings σ]

/-- Emits a statistic, which has to have a text. -/
def emit (record : Record) : Action σ ρ Unit := do
  let _ ← record.text
  Action.note (.emitted record)

/-- Runs one operation and emits its statistics. -/
def attempt (polls : Nat) (c : Settings 𝕜) (turn : Outcome (List Record) → Turn) (number : Nat)
    (kind : Kind) : Action σ ρ Unit := do
  Action.note (.running number kind)
  let start ← Action.now
  let answer ← Action.ofCourse (Operation.run polls c kind : Action σ ρ (List Record)).run
  Action.note (.turned (turn answer))
  let outputs ← answer
  Action.note (.finished number kind (← Action.elapsed start))
  outputs.forM emit

def recover (c : Settings 𝕜) (p : Progress τ) (kind : Option Kind) (fault : Fault) :
    Course σ ρ (Next × Progress τ) := do
  Course.note (.failed p.operations kind fault)
  return (afterFailure c, p)

/-- Selects the next operation for a moment of the run. -/
def select (policy : Policy τ ρ) (c : Settings 𝕜) (memory : τ) (elapsed : Int) :
    Course σ ρ (Outcome (Option Kind) × τ) := do
  let (answer, memory) ← Course.draw fun random =>
    let (answer, memory, random) := policy.choose elapsed c.durationMs memory random
    ((answer, memory), random)
  Course.note (.turned (.selected answer))
  return (answer, memory)

/-- One round: an operation, and a pause where pauses are configured.  The pause follows only on
an operation that did not fail. -/
def round (policy : Policy τ ρ) (polls : Nat) (c : Settings 𝕜) (start : Int) (p : Progress τ) :
    Course σ ρ (Next × Progress τ) := do
  Course.note (.selecting (p.operations + 1))
  let (answer, memory) ← select policy c p.memory (← Course.elapsed start)
  let p := { p with memory }
  match answer with
  | .error fault => recover c p none fault
  | .ok none => return (.stop .exhausted, p)
  | .ok (some kind) =>
      let p := { p with operations := p.operations + 1 }
      match ← (attempt polls c (.ran kind) p.operations kind : Action σ ρ Unit).run with
      | .error fault => recover c p (some kind) fault
      | .ok () =>
          if c.pause.isNone then return (.again, p)
          else
            let p := { p with pauses := p.pauses + 1 }
            match ← (attempt polls c .paused p.pauses .sleep : Action σ ρ Unit).run with
            | .error fault => recover c p (some .sleep) fault
            | .ok () => return (.again, p)

/-- Rounds until the run ends, at most so many. -/
def loop (policy : Policy τ ρ) (polls : Nat) (c : Settings 𝕜) (start : Int) :
    Nat → Progress τ → Course σ ρ (Ending × Progress τ)
  | 0, _ => Course.endless
  | rounds + 1, p => do
      let elapsed ← Course.elapsed start
      Course.note (.turned (.looked elapsed))
      if c.durationMs ≤ elapsed then return (.timeout, p)
      else
        match ← round policy polls c start p with
        | (.again, p) => loop policy polls c start rounds p
        | (.stop ending, p) => return (ending, p)

/-- A whole run with a given way to select operations.  It takes at most `limit` rounds, and at
most as many answers in each wait for replicas. -/
def runWith (policy : Policy τ ρ) (limit : Nat) (c : Settings 𝕜) (key value : String) :
    Course σ ρ Ending := do
  Course.note (.began key value)
  let start ← Course.now
  let (ending, p) ← loop policy limit c start limit (Progress.start policy)
  let time ← Course.elapsed start
  -- Only the end follows on these two, so whether they have texts is left to who takes their
  -- pairs.
  Course.note (.emitted (.long opType Measurement.opCount p.operations))
  Course.note (.emitted (.long opType Measurement.timeTaken time))
  Course.note (.ended p.operations time ending)
  return ending

end Worker

/-- What a run leaves: how it ended, the surroundings, and its events, the oldest first. -/
structure Worker.Account (σ : Type) where
  ending : Ending
  world : σ
  events : List Event

namespace Worker

/-- Runs a worker in given surroundings, with a given way to select operations and a given source
of random numbers. -/
def accountWith {σ ρ τ 𝕜 : Type} [RandomSource ρ] [Surroundings σ] (policy : Policy τ ρ)
    (limit : Nat) (c : Settings 𝕜) (key value : String) (world : σ) (random : ρ) :
    Option (Account σ) :=
  (runWith policy limit c key value { world, random, journal := [] }).map fun (ending, s) =>
    { ending, world := s.world, events := s.journal.reverse }

section Weighted

variable {σ ρ 𝕜 : Type} [RandomSource ρ] [Surroundings σ] [Add 𝕜] [Sub 𝕜] [Mul 𝕜] [Div 𝕜] [LE 𝕜]
  [LT 𝕜] [BEq 𝕜] [OfScientific 𝕜] [DecidableLE 𝕜] [DecidableLT 𝕜] [Reckoning 𝕜]

/-- Selection by the configured weights.  A selected operation has to be set up. -/
def weighted (c : Settings 𝕜) : Policy Tally ρ where
  initial := Tally.empty
  choose elapsed duration tally random :=
    match Selector.select c.operations (.whole elapsed) (.whole duration) tally random with
    | .error fault => (.error fault, tally, random)
    | .ok none => (.ok none, tally, random)
    | .ok (some (kind, tally, random)) =>
        ((Operation.ready c kind).map fun _ => some kind, tally, random)

/-- Runs a worker that selects by weights. -/
def account (limit : Nat) (c : Settings 𝕜) (key value : String) (world : σ) (random : ρ) :
    Option (Account σ) :=
  accountWith (weighted c) limit c key value world random

end Weighted

/-- The source of random numbers of a worker: that for the configured seed, or else for another
one. -/
def random {𝕜 : Type} (c : Settings 𝕜) (otherwise : Int) : Twister :=
  Twister.ofSeed (c.seed.getD otherwise)

/-- The lines that tell the configuration of a worker, as far as they can be written. -/
def configured (logger : String) (c : Settings Float) : List (Outcome Log.Line) :=
  c.lines.map fun line => line.map fun text => ⟨.info, logger, text⟩

/-- Reads the options of a worker.  What is logged are the configuration, or that there is
none. -/
def configure (options : Options) : Outcome (Settings Float) × List (Outcome Log.Line) :=
  match options.settings with
  | .ok c => (.ok c, configured logger c)
  | .error fault =>
      (.error fault,
        if fault.isBadValue then [.ok ⟨.error, logger, "Unable to setup slive worker"⟩] else [])

namespace Account

variable {σ : Type} (a : Account σ)

def turns : List Turn :=
  a.events.filterMap Event.turn?

def records : List Record :=
  a.events.filterMap Event.record?

def calls : List Request :=
  a.events.filterMap Event.call?

/-- The lengths of all sleeps, in milliseconds. -/
def sleeps : List Int :=
  a.events.filterMap Event.sleep?

def statuses : List String :=
  a.events.filterMap Event.status?

def latencies : Latencies :=
  Latencies.ofEvents a.events

/-- What a run logs; the summaries of the latencies come last. -/
def lines (logger : String) : Except NumberFault (List Log.Line) := do
  let summaries ← a.latencies.lines
  return a.events.filterMap (Event.line? logger) ++
    summaries.map fun text => ⟨.info, logger, text⟩

end Account

end Worker

end StorageLoad
