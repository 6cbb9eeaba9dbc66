import StorageLoad.Record
import StorageLoad.Table
import StorageLoad.Text.Half

/-!
Merging what any number of workers emitted: one statistic for each key, in the order of the keys.
-/

namespace StorageLoad

/-- The statistics merged so far, by key. -/
abbrev Reducer := Table String Record

namespace Reducer

def empty : Reducer := Table.empty

/-- Merges one emitted pair. -/
def add (m : Reducer) (key : String) (v : Value) : Outcome Reducer := do
  let record ← Record.parse key v
  match m.get? key with
  | none => return m.insert key record
  | some current => return m.insert key (← current.merge record)

/-- Merges pairs in their order, up to the first that is bad. -/
def addAll (m : Reducer) : List (String × Value) → Outcome Unit × Reducer
  | [] => (.ok (), m)
  | (key, v) :: pairs =>
      match m.add key v with
      | .error fault => (.error fault, m)
      | .ok m => addAll m pairs

/-- The merged statistics in ascending order of their keys, by code points. -/
def outputs (m : Reducer) : List Record :=
  (m.entries.mergeSort fun d e => Text.upTo d.1 e.1).map (·.2)

/-- Merges pairs from nothing. -/
def reduce (pairs : List (String × Value)) : Outcome (List Record) :=
  match empty.addAll pairs with
  | (.ok (), m) => .ok m.outputs
  | (.error fault, _) => .error fault

end Reducer

end StorageLoad
