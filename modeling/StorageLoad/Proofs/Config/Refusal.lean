import StorageLoad.Proofs.Config.Ceiling
import StorageLoad.Proofs.Config.Faults
import StorageLoad.Proofs.Config.Spelling

/-!
How reading options can fail.  Each step of the reading is either refused with a fault of the
options, or meets a number that is out of reach; where all numbers are of a moderate size the
second does not happen.
-/

namespace StorageLoad

open Fault Outcome

variable {m : Prop}

namespace Double

variable {x : Float} {rule : Nat → Nat → Nat} {n : Int}

end Double

namespace Shares

open Double

variable {total : Int} {percents : List Float}

section Pairing

variable {𝕜 : Type}

end Pairing

end Shares

namespace Value

theorem mem_of_lookup {name : String} {entries : List (Value × Value)} {v : Value}
    (h : lookup name entries = some v) : ∃ e ∈ entries, e.2 = v := by
  induction entries with
  | nil => cases h
  | cons e entries ih =>
      rw [lookup] at h
      split at h
      · exact ⟨e, List.mem_cons_self, Option.some.inj h⟩
      · obtain ⟨d, hd, hv⟩ := ih h
        exact ⟨d, List.mem_cons_of_mem _ hd, hv⟩

end Value

namespace Options

open Config Double

variable {options : Options} {name : String} {v : Value} {α : Type}

section Operations

variable {entries : List (Kind × Options)}

end Operations

/-- An infinite seed. -/
def endless : Options :=
  [(.text "seed", .real (Float.ofBits 0x7FF0000000000000))]

end Options

end StorageLoad
