import StorageLoad.Log
import StorageLoad.Latency
import StorageLoad.Record
import StorageLoad.Store.Request

/-!
What happens in the run of a worker, event by event.  Status messages, log lines, emitted
statistics and latencies are all read off the events.
-/

namespace StorageLoad

/-- How the run of a worker ends. -/
inductive Ending where
  /-- The time was up. -/
  | timeout
  /-- There was no operation left to select. -/
  | exhausted
  /-- An operation failed, and the worker was to stop at that. -/
  | aborted
  deriving Repr, DecidableEq

def Ending.name : Ending → String
  | timeout => "timeout"
  | exhausted => "exhausted"
  | aborted => "aborted"

/-- What a worker does in its loop, and what comes of it. -/
inductive Turn where
  /-- The time since the start was looked at, to see whether it is up. -/
  | looked (elapsed : Int)
  /-- An operation was to be selected. -/
  | selected (answer : Outcome (Option Kind))
  /-- The selected operation was run. -/
  | ran (kind : Kind) (answer : Outcome (List Record))
  | paused (answer : Outcome (List Record))

inductive Event where
  /-- The storage service was called. -/
  | asked (request : Request)
  | slept (ms : Int)
  /-- A path has the replication factor that was asked for, some time after the request. -/
  | settled (path : Path) (replicas ms : Int)
  | began (key value : String)
  | turned (turn : Turn)
  | selecting (number : Nat)
  | running (number : Nat) (kind : Kind)
  | finished (number : Nat) (kind : Kind) (latency : Int)
  | emitted (record : Record)
  /-- Selecting or running an operation failed, after so many selected operations. -/
  | failed (operations : Nat) (kind : Option Kind) (fault : Fault)
  | ended (operations : Nat) (ms : Int) (ending : Ending)

namespace Event

def call? : Event → Option Request
  | asked request => some request
  | _ => none

def sleep? : Event → Option Int
  | slept ms => some ms
  | _ => none

def turn? : Event → Option Turn
  | turned turn => some turn
  | _ => none

def record? : Event → Option Record
  | emitted record => some record
  | _ => none

/-- What a status message and a log line say alike. -/
def message? : Event → Option String
  | began key value => some s!"Running slive worker for dummy key {key} and dummy value {value}"
  | selecting number => some s!"Attempting to select operation #{number}"
  | running number kind => some s!"Running operation #{number} ({kind.name})"
  | finished number kind _ => some s!"Finished operation #{number} ({kind.name})"
  | ended operations ms ending =>
      some s!"Finished {operations} operations in {ms} milliseconds ({ending.name})"
  | _ => none

/-- The status that is reported. -/
def status? : Event → Option String
  | failed _ _ fault => some ("Failed at running due to " ++ fault.message)
  | e => e.message?

/-- The logger of the operation that changes replication factors. -/
def replicationLogger : String := "slive.operations.replication"

/-- The line that a worker with the given logger logs. -/
def line? (logger : String) : Event → Option Log.Line
  | settled path replicas ms =>
      some ⟨.debug, replicationLogger,
        s!"{path.toText} reached {replicas} replicas after {ms} ms"⟩
  | failed operations kind _ =>
      let shown := (kind.map Kind.name).getD "None"
      some ⟨.warning, logger, s!"Operation #{operations} ({shown}) failed"⟩
  | e => e.message?.map fun text => ⟨.info, logger, text⟩

end Event

/-- The latencies of the operations that finished. -/
def Latencies.ofEvents (events : List Event) : Latencies :=
  events.foldl (fun l e =>
    match e with
    | .finished _ kind latency => l.report kind.name latency
    | _ => l) Latencies.empty

end StorageLoad
