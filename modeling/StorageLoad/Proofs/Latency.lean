import Mathlib.Algebra.Ring.Int.Defs
import Mathlib.Algebra.Ring.Nat
import StorageLoad.Journal
import StorageLoad.Proofs.Table

/-!
The latencies of a run: every operation that finished is counted once, under its name
(`total_ofEvents`), and with the time that it took (`sum_ofEvents`).
-/

namespace StorageLoad

/-- Whether an operation of a kind finished. -/
def Event.finishes (kind : Kind) : Event → Bool
  | finished _ k _ => k = kind
  | _ => false

/-- The latency of an operation of a kind that finished. -/
def Event.latency? (kind : Kind) : Event → Option Int
  | finished _ k latency => if k = kind then some latency else none
  | _ => none

namespace Histogram

variable {h : Histogram}

/-- Every latency as often as it was reported. -/
def spread (entries : List (Int × Nat)) : List Int :=
  entries.flatMap fun e => List.replicate e.2 e.1

theorem total_eq_length (h : Histogram) : h.total = (spread h.entries).length := by
  change (h.entries.map (·.2)).sum = _
  simp [spread, List.length_flatMap]

theorem sum_eq_sum (h : Histogram) : h.sum = (spread h.entries).sum := by
  change (h.entries.map fun e => e.1 * (e.2 : Int)).sum = _
  simp [spread, List.flatMap_def, List.sum_flatten, List.sum_replicate,
    Function.comp_def, mul_comm]

theorem count_spread (latency : Int) (entries : List (Int × Nat)) :
    (spread entries).count latency =
      (entries.map fun e => if e.1 = latency then e.2 else 0).sum := by
  simp [spread, List.count_flatMap, List.count_replicate, Function.comp_def]

theorem spread_report (hsorted : h.IsSorted) (latency : Int) :
    (spread (h.report latency).entries).Perm (latency :: spread h.entries) := by
  rw [List.perm_iff_count]
  intro other
  have hsum := hsorted.sum_insert (fun l count => if l = other then count else 0) latency
    ((h.get? latency).getD 0 + 1)
  rw [List.count_cons, count_spread, count_spread, report]
  by_cases hsame : latency = other
  · simp only [hsame, if_true, beq_self_eq_true, Option.map_id'] at hsum ⊢
    omega
  · simp only [hsame, if_false, beq_iff_eq] at hsum ⊢
    cases hget : h.get? latency with
    | none => simpa [hget] using hsum
    | some count => simpa [hget] using hsum

theorem total_report (hsorted : h.IsSorted) (latency : Int) :
    (h.report latency).total = h.total + 1 := by
  rw [total_eq_length, total_eq_length, (spread_report hsorted latency).length_eq,
    List.length_cons]

theorem sum_report (hsorted : h.IsSorted) (latency : Int) :
    (h.report latency).sum = h.sum + latency := by
  rw [sum_eq_sum, sum_eq_sum, (spread_report hsorted latency).sum_eq, List.sum_cons, add_comm]

end Histogram

namespace Latencies

variable {l : Latencies}

theorem histogram_report (name other : String) (latency : Int) :
    (l.report name latency).histogram other =
      if other = name then (l.histogram name).report latency else l.histogram other := by
  rw [report, histogram, Table.get?_insert]
  split
  · rfl
  · rfl

theorem isSorted_report (h : ∀ name, (l.histogram name).IsSorted) (name : String)
    (latency : Int) :
    ∀ other, ((l.report name latency).histogram other).IsSorted := by
  intro other
  rw [histogram_report]
  split
  · exact (h name).insert _ _
  · exact h other

/-- The step of `ofEvents`. -/
def follow (l : Latencies) : Event → Latencies
  | .finished _ kind latency => l.report kind.name latency
  | _ => l

theorem ofEvents_eq (events : List Event) : ofEvents events = events.foldl follow empty :=
  rfl

theorem total_foldl (h : ∀ name, (l.histogram name).IsSorted) (events : List Event)
    (kind : Kind) :
    ((events.foldl follow l).histogram kind.name).total =
      (l.histogram kind.name).total + events.countP (Event.finishes kind) := by
  induction events generalizing l with
  | nil => rfl
  | cons e events ih =>
      rw [List.foldl_cons, List.countP_cons]
      cases e with
      | finished number k latency =>
          rw [follow, ih (isSorted_report h k.name latency), histogram_report]
          split
          · rename_i hname
            obtain rfl := Kind.name_injective hname
            rw [Histogram.total_report (h kind.name), if_pos (by simp [Event.finishes])]
            omega
          · rename_i hname
            have hne : k ≠ kind := fun heq => hname (heq ▸ rfl)
            rw [if_neg (by simpa [Event.finishes] using hne), Nat.add_zero]
      | _ => exact ih h

theorem total_ofEvents (events : List Event) (kind : Kind) :
    ((ofEvents events).histogram kind.name).total = events.countP (Event.finishes kind) := by
  rw [ofEvents_eq, total_foldl]
  · exact Nat.zero_add _
  · exact fun _ => List.Pairwise.nil

theorem sum_foldl (h : ∀ name, (l.histogram name).IsSorted) (events : List Event) (kind : Kind) :
    ((events.foldl follow l).histogram kind.name).sum =
      (l.histogram kind.name).sum + (events.filterMap (Event.latency? kind)).sum := by
  induction events generalizing l with
  | nil => exact (Int.add_zero _).symm
  | cons e events ih =>
      rw [List.foldl_cons]
      cases e with
      | finished number k latency =>
          rw [follow, ih (isSorted_report h k.name latency), histogram_report]
          split
          · rename_i hname
            obtain rfl := Kind.name_injective hname
            have hlatency : Event.latency? kind (.finished number kind latency) = some latency :=
              if_pos rfl
            rw [Histogram.sum_report (h kind.name), List.filterMap_cons_some hlatency,
              List.sum_cons, Int.add_assoc]
          · rename_i hname
            have hne : k ≠ kind := fun heq => hname (heq ▸ rfl)
            have hlatency : Event.latency? kind (.finished number k latency) = none := if_neg hne
            rw [List.filterMap_cons_none hlatency]
      | _ => exact ih h

theorem sum_ofEvents (events : List Event) (kind : Kind) :
    ((ofEvents events).histogram kind.name).sum =
      (events.filterMap (Event.latency? kind)).sum := by
  rw [ofEvents_eq, sum_foldl]
  · exact Int.zero_add _
  · exact fun _ => List.Pairwise.nil

end Latencies

end StorageLoad
