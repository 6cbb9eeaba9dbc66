import StorageLoad.Fault

/-!
Reading a clock of seconds in whole milliseconds.
-/

namespace StorageLoad.Clock

/-- The whole milliseconds of a time in seconds; a part of a millisecond is dropped. -/
def milliseconds (seconds : Quantity Float) : Except NumberFault Int :=
  match seconds with
  | .whole n => .ok (n * 1000)
  | .real x => Reckoning.truncate (x * 1000.0)

/-- The milliseconds since a moment, none if it is still to come. -/
def elapsed (start now : Int) : Int :=
  max 0 (now - start)

theorem elapsed_nonneg (start now : Int) : 0 ≤ elapsed start now :=
  Int.le_max_left 0 _

theorem elapsed_mono {start a b : Int} (h : a ≤ b) : elapsed start a ≤ elapsed start b := by
  simp only [elapsed]
  omega

/-- A time in seconds, from milliseconds. -/
def seconds (ms : Int) : Except NumberFault Float := do
  return (← Reckoning.ofInt ms) / 1000.0

end StorageLoad.Clock
