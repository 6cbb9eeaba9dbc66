import StorageLoad.Fault
import StorageLoad.Random.Source

/-!
Ranges of integers, both ends included.
-/

namespace StorageLoad

structure Range where
  lower : Int
  upper : Int
  ordered : lower ≤ upper
  deriving Repr, DecidableEq

namespace Range

/-- The range between two ends that are in order. -/
def between (lower upper : Int) : Outcome Range :=
  if h : lower ≤ upper then .ok ⟨lower, upper, h⟩
  else .error (Fault.writing [lower, upper] (.option (.rangeOrder lower upper)))

def text (r : Range) : String :=
  toString r.lower ++ "," ++ toString r.upper

/-- The text, where neither end is too long to be written. -/
def text? (r : Range) : Outcome String :=
  if Value.isOversized r.lower || Value.isOversized r.upper then .error (.number .tooLongToWrite)
  else .ok r.text

/-- A random integer of the range. -/
def draw {ρ : Type} [RandomSource ρ] (range : Range) (r : ρ) : Int × ρ :=
  RandomSource.between range.lower range.upper r

instance : Membership Int Range where
  mem r n := r.lower ≤ n ∧ n ≤ r.upper

theorem draw_mem {ρ : Type} [RandomSource ρ] (range : Range) (r : ρ) :
    (range.draw r).1 ∈ range :=
  ⟨RandomSource.lower_le_between r, RandomSource.between_le_upper range.ordered r⟩

end Range

end StorageLoad
