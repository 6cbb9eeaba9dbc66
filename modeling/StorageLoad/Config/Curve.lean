import StorageLoad.Fault

/-!
Weight curves: from the fraction of a run that is over to the weight of an operation.
-/

namespace StorageLoad

/-- A weight at a fraction of the run. -/
structure Breakpoint (𝕜 : Type) where
  fraction : 𝕜
  weight : 𝕜
  deriving Repr, DecidableEq

/-- A weight that stays, or one that goes in straight lines between breakpoints, which stand in
ascending order. -/
inductive Curve (𝕜 : Type) where
  | constant (weight : 𝕜)
  | linear (points : List (Breakpoint 𝕜))
  deriving Repr, DecidableEq

namespace Curve

variable {𝕜 : Type} [Add 𝕜] [Sub 𝕜] [Mul 𝕜] [Div 𝕜] [LE 𝕜] [LT 𝕜] [BEq 𝕜] [OfScientific 𝕜]
  [DecidableLE 𝕜] [DecidableLT 𝕜] [Reckoning 𝕜]

/-- The order of breakpoints: by fraction, then by weight. -/
def precedes (p q : Breakpoint 𝕜) : Bool :=
  if p.fraction == q.fraction then decide (p.weight < q.weight)
  else decide (p.fraction < q.fraction)

/-- Puts a breakpoint behind those that it does not precede, by halving.  A weight that is no
number precedes none and is preceded by none, so it takes the place to which the halving leads. -/
def insertHalving (p : Breakpoint 𝕜) (points : List (Breakpoint 𝕜)) : List (Breakpoint 𝕜) :=
  match _h : points.drop (points.length / 2) with
  | [] => [p]
  | q :: after =>
      let before := points.take (points.length / 2)
      if precedes p q then insertHalving p before ++ q :: after
      else before ++ q :: insertHalving p after
termination_by points.length
decreasing_by
  all_goals
    have hlen := congrArg List.length _h
    simp only [List.length_drop, List.length_cons] at hlen
    first
      | (simp only [List.length_take]; omega)
      | omega

/-- Puts a breakpoint at the end if it does not precede the last one, and else where halving
leads. -/
def insertPoint (p : Breakpoint 𝕜) (points : List (Breakpoint 𝕜)) : List (Breakpoint 𝕜) :=
  if points.getLast?.any (precedes p) then insertHalving p points else points ++ [p]

/-- A breakpoint that lies in the run and has no negative weight. -/
def checkPoint (p : Breakpoint 𝕜) : Except CurveFault (Breakpoint 𝕜) :=
  if ¬((0.0 : 𝕜) ≤ p.fraction ∧ p.fraction ≤ (1.0 : 𝕜)) then
    .error (.fractionOutside (Reckoning.text p.fraction))
  else if p.weight < (0.0 : 𝕜) then .error (.negativeWeight (Reckoning.text p.weight))
  else .ok p

/-- The curve through breakpoints given in any order. -/
def ofPoints (points : List (Breakpoint 𝕜)) : Except CurveFault (Curve 𝕜) :=
  match points.mapM checkPoint with
  | .error fault => .error fault
  | .ok points =>
      if points.isEmpty then .error .noPoints
      else .ok (.linear (points.foldl (fun sorted p => insertPoint p sorted) []))

/-- The value at `x` of the straight line through two points. -/
def line (p q : Breakpoint 𝕜) (x : 𝕜) : 𝕜 :=
  if q.fraction == p.fraction then q.weight
  else p.weight + (q.weight - p.weight) * (x - p.fraction) / (q.fraction - p.fraction)

/-- The weight at a fraction between the last breakpoint that does not lie after it and the first
that does; beyond either end the weight of the end. -/
def interpolate (points : List (Breakpoint 𝕜)) (x : 𝕜) : 𝕜 :=
  let before := points.takeWhile fun p => ¬ x < p.fraction
  let after := points.dropWhile fun p => ¬ x < p.fraction
  match before.getLast?, after.head? with
  | some p, some q => line p q x
  | some p, none => p.weight
  | none, some q => q.weight
  | none, none => (0.0 : 𝕜)

/-- The weight at a fraction of the run. -/
def weight : Curve 𝕜 → 𝕜 → 𝕜
  | constant w, _ => w
  | linear points, x => interpolate points x

/-- The least weight of the named curves. -/
def floor : 𝕜 := (0.1 : 𝕜)

/-- The curves that have a name. -/
def named : List (String × Curve 𝕜) :=
  [("uniform", .constant (1.0 : 𝕜)),
    ("beg", .linear [⟨(0.0 : 𝕜), (1.0 : 𝕜)⟩, ⟨(1.0 : 𝕜), floor⟩]),
    ("mid", .linear [⟨(0.0 : 𝕜), floor⟩, ⟨(0.5 : 𝕜), (1.0 : 𝕜)⟩, ⟨(1.0 : 𝕜), floor⟩]),
    ("end", .linear [⟨(0.0 : 𝕜), floor⟩, ⟨(1.0 : 𝕜), (1.0 : 𝕜)⟩])]

/-- The curve with a name, in any case. -/
def ofName (name : String) : Except CurveFault (Curve 𝕜) :=
  match named.find? fun entry => Text.isWord entry.1 name with
  | some (_, curve) => .ok curve
  | none => .error (.unknownName name)

end Curve

namespace Curve

/-- The text of a curve. -/
def text : Curve Float → String
  | constant weight => s!"ConstantWeight({Layout.shortest weight})"
  | linear points =>
      let pairs := points.map fun p =>
        s!"({Layout.shortest p.fraction}, {Layout.shortest p.weight})"
      "PiecewiseLinearWeight([" ++ ", ".intercalate pairs ++ "])"

/-- A breakpoint from two numbers of any sort.  Error texts show a number as it was given. -/
def pointOfValues (fraction weight : Value) : Outcome (Breakpoint Float) := do
  let x ← fraction.toQuantity
  if x.isOutsideUnit then throw (.curve (.fractionOutside (← fraction.toText?)))
  let y ← weight.toQuantity
  if y.isNegative then throw (.curve (.negativeWeight (← weight.toText?)))
  return ⟨← x.toReal, ← y.toReal⟩

/-- The curve through breakpoints given as pairs of numbers. -/
def ofPairs (points : Value) : Outcome (Curve Float) := do
  let points ← (← points.items).mapM fun item => do
    let (x, y) ← item.pair
    pointOfValues x y
  (ofPoints points).mapError .curve

/-- The weight at a number of any sort.  A whole number beyond the run is as far out as the next
one. -/
def weightAt (c : Curve Float) (fraction : Value) : Outcome Float :=
  match c with
  | constant w => .ok w
  | linear points => do
      match ← fraction.toQuantity with
      | .real x => return interpolate points x
      | .whole n => return interpolate points (Float.ofInt (max (-1) (min n 1)))

/-- The weight of a curve at a number, where the curve has a rule at all. -/
def weightOf (curve : Option (Curve Float)) (fraction : Value) : Outcome Float :=
  match curve with
  | some curve => curve.weightAt fraction
  | none => .error .noRule

/-- The curve that stays at a number. -/
def ofNumber (weight : Value) : Outcome (Curve Float) := do
  let w ← weight.toQuantity
  if w.isNegative then throw (.curve (.negativeWeight (← weight.toText?)))
  return .constant (← w.toReal)

end Curve

end StorageLoad
