import StorageLoad.Fault
import StorageLoad.Table
import StorageLoad.Text.Half

/-!
Latencies of operations, kept as histograms, and their summaries: number, average, and the
latencies that a half, nine tenths and ninety-nine hundredths of the operations stay within.
-/

namespace StorageLoad

/-- How often each latency was reported. -/
abbrev Histogram := Table Int Nat

namespace Histogram

/-- Counts one more operation with a latency. -/
def report (h : Histogram) (latency : Int) : Histogram :=
  h.insert latency ((h.get? latency).getD 0 + 1)

/-- The number of reports. -/
def total (h : Histogram) : Nat :=
  (h.entries.map (·.2)).foldr (· + ·) 0

/-- The sum of all reported latencies. -/
def sum (h : Histogram) : Int :=
  (h.entries.map fun (latency, count) => latency * count).foldr (· + ·) 0

/-- Every latency with the number of reports up to it. -/
def running : Nat → List (Int × Nat) → List (Int × Nat)
  | _, [] => []
  | before, (latency, count) :: entries =>
      (latency, before + count) :: running (before + count) entries

/-- What stands in the place of a latency that is not there. -/
def placeholder : Int := -1

section Summary

variable {𝕜 : Type} [Mul 𝕜] [LE 𝕜] [DecidableLE 𝕜] [OfScientific 𝕜] [Reckoning 𝕜]

/-- The first latency that at least `threshold` reports stay within; one that equals the
placeholder does not count. -/
def reaching (threshold : 𝕜) : List (Int × Nat) → Except NumberFault Int
  | [] => .ok placeholder
  | (latency, count) :: rest => do
      let reached : 𝕜 ← Reckoning.ofInt count
      if threshold ≤ reached ∧ latency ≠ placeholder then return latency
        else reaching threshold rest

/-- The number of reports, their average, and three latencies on the way to the greatest. -/
structure Summary (𝕜 : Type) where
  count : Nat
  average : 𝕜
  median : Int
  ninety : Int
  ninetyNine : Int
  deriving Repr, DecidableEq

def summary (h : Histogram) : Except NumberFault (Summary 𝕜) := do
  let total := h.total
  if total = 0 then
    return ⟨0, (0.0 : 𝕜), placeholder, placeholder, placeholder⟩
  else
    let counts := running 0 h.entries
    let all : 𝕜 ← Reckoning.ofInt total
    let median ← reaching (← (Reckoning.quotient total 2 : Except NumberFault 𝕜)) counts
    let ninety ← reaching (all * (0.9 : 𝕜)) counts
    let ninetyNine ← reaching (all * (0.99 : 𝕜)) counts
    return ⟨total, ← Reckoning.quotient h.sum total, median, ninety, ninetyNine⟩

end Summary

/-- The line that reports a summary. -/
def Summary.line (name : String) (s : Summary Float) : String :=
  s!"{name}: {s.count} ops, latency avg {Layout.fixed 2 s.average} ms, median {s.median} ms, " ++
    s!"90% {s.ninety} ms, 99% {s.ninetyNine} ms"

end Histogram

/-- The histograms of all operations, by their names. -/
abbrev Latencies := Table String Histogram

namespace Latencies

def empty : Latencies := Table.empty

def histogram (l : Latencies) (name : String) : Histogram :=
  (l.get? name).getD Table.empty

/-- Counts one operation. -/
def report (l : Latencies) (name : String) (latency : Int) : Latencies :=
  l.insert name ((l.histogram name).report latency)

/-- Counts one operation whose latency is any number; it is rounded, a half to the even
neighbour. -/
def reportValue (l : Latencies) (name : String) (latency : Value) : Outcome Latencies := do
  match ← latency.toQuantity with
  | .whole n => return l.report name n
  | .real x => return l.report name (← Reckoning.round x)

def summary {𝕜 : Type} [Mul 𝕜] [LE 𝕜] [DecidableLE 𝕜] [OfScientific 𝕜] [Reckoning 𝕜]
    (l : Latencies) (name : String) : Except NumberFault (Histogram.Summary 𝕜) :=
  (l.histogram name).summary

/-- A line for each operation, by name. -/
def lines (l : Latencies) : Except NumberFault (List String) :=
  (l.keys.mergeSort Text.upTo).mapM fun name => return (← l.summary name).line name

end Latencies

end StorageLoad
