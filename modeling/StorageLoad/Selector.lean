import StorageLoad.Config.Settings

/-!
Choosing the next operation.  An operation can be chosen while it is below its limit and its
weight is positive; one random number decides between those, each with a share of the numbers as
large as its share of the weights.
-/

namespace StorageLoad

/-- How often each kind was selected. -/
structure Tally where
  counts : List (Kind × Nat)
  deriving Repr, DecidableEq

namespace Tally

def empty : Tally := ⟨[]⟩

def count (t : Tally) (kind : Kind) : Nat :=
  (t.counts.lookup kind).getD 0

/-- Counts one more selection. -/
def add (kind : Kind) (t : Tally) : Tally :=
  ⟨bump t.counts⟩
where
  bump : List (Kind × Nat) → List (Kind × Nat)
    | [] => [(kind, 1)]
    | (k, n) :: rest => if k = kind then (k, n + 1) :: rest else (k, n) :: bump rest

theorem count_add (kind k : Kind) (t : Tally) :
    (t.add kind).count k = t.count k + if k = kind then 1 else 0 := by
  obtain ⟨counts⟩ := t
  simp only [count, add]
  induction counts with
  | nil =>
    by_cases h : k = kind
    · simp [add.bump, h]
    · simp [add.bump, List.lookup_cons, h, beq_eq_false_iff_ne.2 h]
  | cons entry rest ih =>
    obtain ⟨l, n⟩ := entry
    simp only [add.bump]
    by_cases hl : l = kind <;> by_cases hk : k = l
    · subst hl hk
      simp
    · subst hl
      simp [List.lookup_cons, hk, beq_eq_false_iff_ne.2 hk]
    · subst hk
      simp [hl]
    · simp only [hl, if_false, List.lookup_cons, beq_eq_false_iff_ne.2 hk]
      exact ih

end Tally

namespace Selector

variable {𝕜 : Type} [Add 𝕜] [Sub 𝕜] [Mul 𝕜] [Div 𝕜] [LE 𝕜] [LT 𝕜] [BEq 𝕜] [OfScientific 𝕜]
  [DecidableLE 𝕜] [DecidableLT 𝕜] [Reckoning 𝕜]

/-- The quotient of two numbers; that of integers is rounded once. -/
def divide (a b : Quantity 𝕜) : Except NumberFault 𝕜 :=
  match a, b with
  | .whole m, .whole n => Reckoning.quotient m n
  | a, b => do return (← a.toReal) / (← b.toReal)

/-- The fraction of a run that is over, at most one; a run without a duration is over at once. -/
def fraction (elapsed duration : Quantity 𝕜) : Outcome 𝕜 := do
  if elapsed.isNegative || duration.isNegative then
    throw (.negativeTime elapsed.text duration.text)
  else if duration.isZero then return (1.0 : 𝕜)
  else
    let ratio ← (divide elapsed duration : Except NumberFault 𝕜)
    return if ratio < (1.0 : 𝕜) then ratio else (1.0 : 𝕜)

/-- Whether an operation has reached its limit. -/
def isExhausted (t : Tally) (s : Spec 𝕜) : Bool :=
  s.maxCount.any fun limit => limit ≤ (t.count s.kind : Int)

/-- The operations that can be chosen, with their weights. -/
def eligible (specs : List (Spec 𝕜)) (t : Tally) (fraction : 𝕜) : List (Spec 𝕜 × 𝕜) :=
  (specs.filter fun s => !isExhausted t s).filterMap fun s =>
    if (0.0 : 𝕜) < s.weight fraction then some (s, s.weight fraction) else none

/-- The operations that can be chosen at a moment of a run. -/
def weights (specs : List (Spec 𝕜)) (elapsed duration : Quantity 𝕜) (t : Tally) :
    Outcome (List (Spec 𝕜 × 𝕜)) := do
  return eligible specs t (← fraction elapsed duration)

/-- Every operation with the sum of the weights up to its own. -/
def accumulate : 𝕜 → List (Spec 𝕜 × 𝕜) → List (Spec 𝕜 × 𝕜)
  | _, [] => []
  | before, (s, w) :: rest => (s, before + w) :: accumulate (before + w) rest

/-- The operation that a number between zero and one stands for: the first whose sum of weights
exceeds that part of the total, or else the last. -/
def pick (weights : List (Spec 𝕜 × 𝕜)) (unit : 𝕜) : Option (Spec 𝕜) :=
  let sums := accumulate (0.0 : 𝕜) weights
  sums.getLast?.map fun (last, total) =>
    ((sums.find? fun (_, sum) => unit * total < sum).map (·.1)).getD last

/-- A random number between zero and one. -/
def drawUnit {ρ : Type} [RandomSource ρ] (r : ρ) : Except NumberFault 𝕜 × ρ :=
  let (n, r) := RandomSource.unit r
  (Reckoning.quotient n (2 ^ 53), r)

/-- The kind of the next operation, with the tally and the random source after the choice; nothing
once no operation has any weight left. -/
def select {ρ : Type} [RandomSource ρ] (specs : List (Spec 𝕜)) (elapsed duration : Quantity 𝕜)
    (t : Tally) (r : ρ) : Outcome (Option (Kind × Tally × ρ)) := do
  let weights ← weights specs elapsed duration t
  if weights.isEmpty then return none
  else
    let (unit, r) := drawUnit (𝕜 := 𝕜) r
    return (pick weights (← unit)).map fun s => (s.kind, t.add s.kind, r)

end Selector

end StorageLoad
