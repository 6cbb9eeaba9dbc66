import StorageLoad.Fault

/-!
Splitting a ceiling on the number of operations between kinds, by their percentages.
-/

namespace StorageLoad.Shares

variable {𝕜 : Type} [Add 𝕜] [Mul 𝕜] [Div 𝕜] [LT 𝕜] [DecidableLT 𝕜] [OfScientific 𝕜]
  [Reckoning 𝕜]

/-- The share of a percentage in the total.  Whole numbers are multiplied without rounding. -/
def share (total : Int) : Quantity 𝕜 → Except NumberFault 𝕜
  | .whole percent => do return (← Reckoning.ofInt (total * percent)) / (100.0 : 𝕜)
  | .real percent => do return (← Reckoning.ofInt total) * percent / (100.0 : 𝕜)

/-- A kind's limit; one that follows from a share may grow if the share is not zero. -/
structure Part where
  limit : Int
  grows : Bool

/-- What a kind is given: its limit, or the percentage to derive one from. -/
inductive Given (𝕜 : Type) where
  | limit (limit : Int)
  | percent (percent : Quantity 𝕜)

/-- The limits that are given, and for each that is not the percentage at its place. -/
def pairUp : List (Option Int) → List (Quantity 𝕜) → Outcome (List (Given 𝕜))
  | [], _ => .ok []
  | some limit :: given, percents => do return .limit limit :: (← pairUp given percents.tail)
  | none :: _, [] => .error .noPercent
  | none :: given, percent :: percents => do return .percent percent :: (← pairUp given percents)

/-- Adds one to the limits that may grow, from the front, as long as some of the remainder is
left. -/
def handOut : Int → List Part → List Part
  | _, [] => []
  | remainder, p :: ps =>
      if remainder ≤ 0 then p :: ps
      else if p.grows then { p with limit := p.limit + 1 } :: handOut (remainder - 1) ps
      else p :: handOut remainder ps

/-- The percentages to derive limits from. -/
def derived (kinds : List (Given 𝕜)) : List (Quantity 𝕜) :=
  kinds.filterMap fun
    | .limit _ => none
    | .percent percent => some percent

/-- A kind's limit before anything is handed out: a share is rounded down. -/
def Part.of (total : Int) : Given 𝕜 → Except NumberFault Part
  | .limit limit => .ok ⟨limit, false⟩
  | .percent percent => do
      return ⟨← Reckoning.truncate (← share total percent), percent.isPositive⟩

/-- The limits of all kinds.  Shares are rounded down; what is left of the rounded sum of the
shares, or of the total if that is less, goes to the first kinds without a given limit. -/
def limits (total : Int) (percents : List (Quantity 𝕜)) (given : List (Option Int)) :
    Outcome (List Int) := do
  let kinds ← pairUp given percents
  let shares ← ((derived kinds).mapM (share total) : Except NumberFault (List 𝕜))
  let floors ← (shares.mapM Reckoning.truncate : Except NumberFault (List Int))
  let sum ← (Reckoning.round (shares.foldl (· + ·) (0.0 : 𝕜)) : Except NumberFault Int)
  let parts ← (kinds.mapM (Part.of total) : Except NumberFault (List Part))
  return (handOut (min total sum - floors.foldr (· + ·) 0) parts).map (·.limit)

end StorageLoad.Shares
