import StorageLoad.Store.Local
import StorageLoad.Store.Memory
import StorageLoad.Surroundings

/-!
Surroundings that are reckoned rather than real: a storage service whose calls take a set time, a
clock that nothing but calls and sleeps moves, and rules by which some calls fail or are answered
beforehand.
-/

namespace StorageLoad

/-- A storage service: its answer to a call with the service afterwards, or `none` for a call that
does not end. -/
class Storage (β : Type) where
  answer : Request → β → Option (Except StoreFault Reply × β)

instance : Storage Memory where
  answer request m := m.answer request

instance : Storage Local where
  answer request s := some (s.answer request)

namespace Simulation

/-- Answers some calls of a method, those between two numbers in the order of its calls, in the
place of the storage service. -/
structure Rule where
  method : Method
  first : Int
  last : Option Int
  answer : Outcome Value

/-- Whether the rule is for the call of a method with a number. -/
def Rule.applies (r : Rule) (method : Method) (number : Nat) : Bool :=
  r.method = method && decide (r.first ≤ number) && r.last.all fun last =>
    decide ((number : Int) ≤ last)

/-- What calls cost in milliseconds, each method its own or else the usual cost. -/
structure Costs where
  own : List (Method × Int)
  usual : Int

def Costs.of (c : Costs) (method : Method) : Int :=
  (c.own.lookup method).getD c.usual

end Simulation

structure Simulation (β : Type) where
  store : β
  /-- The time in milliseconds. -/
  clock : Int
  costs : Simulation.Costs
  rules : List Simulation.Rule
  /-- How often each method was called. -/
  calls : List (Method × Nat)
  /-- How often someone slept, and which time that fails. -/
  sleeps : Nat
  failingSleep : Option Nat
  /-- Whether every call is written down before it is answered. -/
  isTraced : Bool

namespace Simulation

variable {β : Type}

/-- A simulation at its start. -/
def start (store : β) (costs : Costs) (rules : List Rule) (failingSleep : Option Nat)
    (isTraced : Bool) : Simulation β :=
  { store, clock := 0, costs, rules, calls := [], sleeps := 0, failingSleep, isTraced }

/-- The number of the next call of a method, and the counts after it. -/
def countCall (method : Method) (calls : List (Method × Nat)) : Nat × List (Method × Nat) :=
  let number := (calls.lookup method).getD 0 + 1
  (number, (method, number) :: calls.filter (·.1 ≠ method))

/-- The answer to a call, which takes its time.  A call that cannot be written down fails where
calls are. -/
def answer [Storage β] (request : Request) (s : Simulation β) :
    Option (Outcome Reply × Simulation β) :=
  let (number, calls) := countCall request.method s.calls
  let s := { s with calls, clock := s.clock + s.costs.of request.method }
  match request.line?, s.rules.find? (·.applies request.method number) with
  | .error cause, rule =>
      if s.isTraced then some (.error (.number cause), s) else reply rule s
  | .ok _, rule => reply rule s
where
  /-- The answer of a rule, or else of the service. -/
  reply (rule : Option Rule) (s : Simulation β) : Option (Outcome Reply × Simulation β) :=
    match rule with
    | some rule => some (rule.answer.map .value, s)
    | none =>
        (Storage.answer request s.store).map fun (reply, store) =>
          (reply.mapError .store, { s with store })

/-- Moves the clock by a number of seconds, rounded to milliseconds, unless this sleep fails. -/
def sleep (ms : Int) (s : Simulation β) : Outcome Unit × Simulation β :=
  let s := { s with sleeps := s.sleeps + 1 }
  if s.failingSleep = some s.sleeps then (.error (.reported .runtime "interrupted"), s)
  else
    let moved : Except NumberFault Int := do Reckoning.round ((← Clock.seconds ms) * 1000.0)
    match moved with
    | .ok moved => (.ok (), { s with clock := s.clock + moved })
    | .error fault => (.error (.number fault), s)

instance [Storage β] : Surroundings (Simulation β) where
  call := answer
  now s := (s.clock, s)
  sleep := sleep

end Simulation

end StorageLoad
