import StorageLoad.Proofs.History
import StorageLoad.Proofs.Memory.Files

/-!
Calls that come to nothing.  Where the service in memory reports a failure, everything is refused
before anything is changed, whatever texts are given for paths: the service is as it was
(`eq_or_polled_of_isFailure`).  A factor that is told looks like a failure if it is a truth value
itself; then a poll has been counted.
-/

namespace StorageLoad.Memory

open StorageLoad.Path

/-- The answers by which the service tells that a call came to nothing: a fault that it reports
itself, or that it did nothing. -/
inductive IsFailure : Except StoreFault Reply → Prop
  | storage {fault : StoreFault} (h : fault.family = .storage) : IsFailure (.error fault)
  | notFound {fault : StoreFault} (h : fault.family = .notFound) : IsFailure (.error fault)
  | no : IsFailure (.ok .no)

theorem not_isFailure_ok {reply : Reply} (h : reply ≠ .no) : ¬ IsFailure (.ok reply) := by
  rintro ⟨⟩
  exact h rfl

theorem not_isFailure_entryGone (p : Path) : ¬ IsFailure (.error (.entryGone p)) := by
  rintro (h | h)
  all_goals cases h

theorem not_isFailure_int (n : Int) : ¬ IsFailure (.ok (.int n)) :=
  not_isFailure_ok fun h => Value.noConfusion (Reply.value.inj h)

theorem not_isFailure_yes : ¬ IsFailure (.ok .yes) :=
  not_isFailure_ok fun h => Bool.noConfusion (Value.bool.inj (Reply.value.inj h))

variable {m m' : Memory} {p : Path} {answer : Except StoreFault Reply}

theorem eq_of_create_isFailure {data : Bytes} {replication blockSize : Value}
    (h : m.create p data replication blockSize = some (answer, m')) (hfails : IsFailure answer) :
    m' = m := by
  rw [create] at h
  split at h
  · cases h
    rfl
  · split at h
    · cases h
    · cases h
      rfl
    · cases h
      exact absurd hfails (not_isFailure_int _)

theorem eq_of_append_isFailure {data : Bytes} (h : m.append p data = (answer, m'))
    (hfails : IsFailure answer) : m' = m := by
  rw [append] at h
  split at h
  · cases h
    rfl
  · cases h
    exact absurd hfails (not_isFailure_int _)

theorem eq_of_delete_isFailure (h : m.delete p = (answer, m')) (hfails : IsFailure answer) :
    m' = m := by
  rw [delete] at h
  split at h
  · cases h
    rfl
  · dsimp only at h
    split at h
    · cases h
      exact absurd hfails not_isFailure_yes
    · cases h
      exact absurd hfails (not_isFailure_entryGone p)

theorem eq_of_rename_isFailure {source target : Path}
    (h : m.rename source target = some (answer, m')) (hfails : IsFailure answer) : m' = m := by
  rw [rename] at h
  split at h
  · cases h
    rfl
  · split at h
    · cases h
      rfl
    · split at h
      · cases h
      · cases h
        rfl
      · dsimp only at h
        split at h
        · cases h
          exact absurd hfails not_isFailure_yes
        · cases h
          exact absurd hfails (not_isFailure_entryGone source)

theorem eq_of_setReplication_isFailure {factor : Value}
    (h : m.setReplication p factor = (answer, m')) (hfails : IsFailure answer) : m' = m := by
  rw [setReplication] at h
  split at h
  · cases h
    rfl
  · cases h
    exact absurd hfails not_isFailure_yes

theorem eq_of_mkdirs_isFailure (h : m.mkdirs p = some (answer, m')) (hfails : IsFailure answer) :
    m' = m := by
  rw [mkdirs] at h
  split at h
  · cases h
  · cases h
    rfl
  · cases h
    exact absurd hfails not_isFailure_yes

/-- The factor of a file has been asked for, and it is a truth value that reads as a failure. -/
def ToldNo (m : Memory) (request : Request) (m' : Memory) : Prop :=
  ∃ p e, request = .getReplication p ∧ m.file p = .ok e ∧ e.polled.replication = .bool false ∧
    m' = m.put p e.polled

theorem getReplication_of_isFailure (h : m.getReplication p = (answer, m'))
    (hfails : IsFailure answer) :
    m' = m ∨ m.ToldNo (.getReplication p) m' := by
  rw [getReplication] at h
  cases he : m.file p with
  | error fault =>
      rw [he] at h
      cases h
      exact Or.inl rfl
  | ok e =>
      rw [he] at h
      obtain ⟨rfl, rfl⟩ := Prod.mk.inj h
      refine Or.inr ⟨p, e, rfl, he, ?_, rfl⟩
      by_contra hfactor
      exact not_isFailure_ok (fun heq => hfactor (Reply.value.inj heq)) hfails

/-- A call that ends in a failure has left the service as it was, unless the failure is a factor
that was told.  This holds for all texts as paths, and of a service in any state. -/
theorem eq_or_polled_of_isFailure {request : Request}
    (h : Storage.answer request m = some (answer, m')) (hfails : IsFailure answer) :
    m' = m ∨ m.ToldNo request m' := by
  cases request with
  | create path data replication blockSize => exact Or.inl (eq_of_create_isFailure h hfails)
  | append path data => exact Or.inl (eq_of_append_isFailure (Option.some.inj h) hfails)
  | read path length =>
      obtain rfl : (m.read path length).2 = m' := congrArg Prod.snd (Option.some.inj h)
      exact Or.inl (read_snd m path length)
  | delete path => exact Or.inl (eq_of_delete_isFailure (Option.some.inj h) hfails)
  | rename source target => exact Or.inl (eq_of_rename_isFailure h hfails)
  | setReplication path factor =>
      exact Or.inl (eq_of_setReplication_isFailure (Option.some.inj h) hfails)
  | getReplication path => exact getReplication_of_isFailure (Option.some.inj h) hfails
  | listdir path =>
      obtain rfl : (m.listdir path).2 = m' := congrArg Prod.snd (Option.some.inj h)
      exact Or.inl (listdir_snd m path)
  | mkdirs path => exact Or.inl (eq_of_mkdirs_isFailure h hfails)
  | isStored path =>
      cases h
      exact Or.inl rfl

/-- A file in the top. -/
def lone (replication : Value) : Memory :=
  (fresh 2).put (ofNames [['f']]) (Entry.file [] replication (.int 64))

theorem isTree_lone (replication : Value) : (lone replication).IsTree := by
  have hname : AllProper ([] ++ [['f']]) := by decide
  exact (isTree_fresh 2).put hname (isTree_fresh 2).root (isFree_fresh 2 (by decide)) _

theorem create_lone (replication : Value) :
    Storage.answer (.create (ofNames [['f']]) [] replication (.int 64)) (fresh 2) =
      some (.ok (.int 0), lone replication) := by
  have hname : Name.IsProper ['f'] := by decide
  exact (isTree_fresh 2).create_in_top hname (isFree_fresh 2 (by decide)) [] replication (.int 64)

/-- Directories are asked for below the file. -/
theorem eq_or_polled_of_isFailure_lone : ∃ answers m p m',
    Storage.serve [.create (ofNames [['f']]) [] (.int 3) (.int 64)] (fresh 2) =
      some (answers, m) ∧
      Storage.answer (.mkdirs (ofNames [['f'], ['x'], ['y']])) m = some (.error (.isFile p), m') ∧
        IsFailure (.error (.isFile p)) ∧
        (m' = m ∨ m.ToldNo (.mkdirs (ofNames [['f'], ['x'], ['y']])) m') := by
  have hclosed : ¬ (lone (.int 3)).IsOpen [['f'], ['x'], ['y']] := by
    intro hopen
    cases hopen [['f']] (by decide) _ rfl
  obtain ⟨p, hmake⟩ :=
    makeDirectories_of_not_isOpen (isTree_lone (.int 3)).hasParents (by decide) hclosed
  have hanswer : Storage.answer (.mkdirs (ofNames [['f'], ['x'], ['y']])) (lone (.int 3)) =
      some (.error (.isFile p), lone (.int 3)) := by
    change (lone (.int 3)).mkdirs _ = _
    rw [mkdirs, hmake]
  exact ⟨_, _, p, _, Storage.serve_cons (create_lone (.int 3)) rfl, hanswer, .storage rfl,
    eq_or_polled_of_isFailure hanswer (.storage rfl)⟩

/-- A file whose factor is a truth value, for which another one has been asked: the old factor is
told, which reads as a failure, and the poll has been counted. -/
theorem polled_of_isFailure : ∃ answers m m',
    Storage.serve [.create (ofNames [['f']]) [] (.bool false) (.int 64),
      .setReplication (ofNames [['f']]) (.int 3)] (fresh 2) = some (answers, m) ∧
    Storage.answer (.getReplication (ofNames [['f']])) m = some (.ok .no, m') ∧
    IsFailure (.ok .no) ∧ (m.get? (ofNames [['f']])).map (·.pendingPolls) = some 2 ∧
    (m'.get? (ofNames [['f']])).map (·.pendingPolls) = some 1 :=
  ⟨_, _, _, Storage.serve_cons (create_lone (.bool false)) rfl, rfl, .no, rfl, rfl⟩

end StorageLoad.Memory
