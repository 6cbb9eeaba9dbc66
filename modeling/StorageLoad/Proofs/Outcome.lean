import StorageLoad.Operation

/-!
What operations return.  Whatever the storage service answers, an operation that returns reports
either one success, with what goes with it, or one failure, and the time it took (`returns_run`).
-/

namespace StorageLoad

namespace Measurement

/-- What is counted of every operation: how it went, and how long it took. -/
def outcomes : List String :=
  [successes, failures, notFound, timeTaken]

end Measurement

namespace Action

variable {σ ρ α β : Type}

/-- If the action returns, the condition holds for what it returns. -/
def Returns (action : Action σ ρ α) (post : α → Prop) : Prop :=
  ∀ s a s', action.run s = some (.ok a, s') → post a

variable {action : Action σ ρ α} {post : α → Prop}

theorem returns_any (action : Action σ ρ α) : action.Returns fun _ => True :=
  fun _ _ _ _ => trivial

theorem returns_pure {a : α} (h : post a) : (pure a : Action σ ρ α).Returns post := by
  intro s b s' hs
  obtain ⟨hb, -⟩ := Prod.mk.inj (Option.some.inj hs)
  rwa [← Except.ok.inj hb]

theorem returns_throw (fault : Fault) : (throw fault : Action σ ρ α).Returns post := by
  intro s b s' hs
  obtain ⟨hb, -⟩ := Prod.mk.inj (Option.some.inj hs)
  cases hb

theorem Returns.bind {next : α → Action σ ρ β} {post' : β → Prop} (h : action.Returns post)
    (hnext : ∀ a, post a → (next a).Returns post') : (action >>= next).Returns post' := by
  intro s b s'' hs
  rw [ExceptT.run_bind] at hs
  obtain ⟨⟨answer, s'⟩, hfirst, hrest⟩ := Option.bind_eq_some_iff.mp hs
  cases answer with
  | error fault =>
      obtain ⟨hb, -⟩ := Prod.mk.inj (Option.some.inj hrest)
      cases hb
  | ok a => exact hnext a (h s a s' hfirst) s' b s'' hrest

theorem Returns.then {next : α → Action σ ρ β} {post' : β → Prop}
    (hnext : ∀ a, (next a).Returns post') : (action >>= next).Returns post' :=
  (returns_any action).bind fun a _ => hnext a

theorem Returns.of_run (h : action.Returns post) :
    ∀ s answer s', action.run s = some (answer, s') → ∀ a, answer = .ok a → post a := by
  rintro s _ s' hs a rfl
  exact h s a s' hs

theorem Returns.run (h : action.Returns post) :
    (ofCourse action.run).Returns fun answer => ∀ a, answer = .ok a → post a := by
  intro s answer s' hs a ha
  obtain ⟨⟨answer', s''⟩, hfirst, hrest⟩ := Option.bind_eq_some_iff.mp hs
  obtain ⟨hb, -⟩ := Prod.mk.inj (Option.some.inj hrest)
  rw [Except.ok.inj hb, ha] at hfirst
  exact h s a s'' hfirst

end Action

namespace Operation

open StorageLoad.Action

/-- A statistic of an operation other than how it went and how long it took. -/
def IsDetail (kind : Kind) (r : Record) : Prop :=
  ∃ measurement n, r = .long kind.name measurement n ∧ measurement ∉ Measurement.outcomes

/-- A success with what goes with it, or a failure. -/
def IsResult (kind : Kind) (outputs : List Record) : Prop :=
  (∃ details, (∀ r ∈ details, IsDetail kind r) ∧ outputs = succeeded kind :: details) ∨
    outputs = [missed kind]

/-- What an operation of a kind can return. -/
inductive IsReport (kind : Kind) : List Record → Prop
  | succeeded (details : List Record) (h : ∀ r ∈ details, IsDetail kind r) (ms : Int) :
      IsReport kind (succeeded kind :: (details ++ [took kind ms]))
  | missed (ms : Int) : IsReport kind [missed kind, took kind ms]
  | absent (ms : Int) : IsReport kind [missed kind, absent kind, took kind ms]

variable {kind : Kind}

theorem isDetail_long {measurement : String} (h : measurement ∉ Measurement.outcomes) (n : Int) :
    IsDetail kind (.long kind.name measurement n) :=
  ⟨measurement, n, rfl, h⟩

theorem isResult_succeeded {details : List Record} (h : ∀ r ∈ details, IsDetail kind r) :
    IsResult kind (succeeded kind :: details) :=
  Or.inl ⟨details, h, rfl⟩

theorem isResult_of_done (done : Bool) {details : List Record}
    (h : ∀ r ∈ details, IsDetail kind r) :
    IsResult kind (if done then succeeded kind :: details else [missed kind]) := by
  cases done with
  | true => exact isResult_succeeded h
  | false => exact Or.inr rfl

variable {σ ρ 𝕜 : Type} [RandomSource ρ] [Surroundings σ]

theorem returns_create (c : Settings 𝕜) (space : Namespace) :
    (create c space : Action σ ρ (List Record)).Returns (IsResult .create) := by
  refine .then fun path => .then fun size => .then fun replication => .then fun blockSize =>
    .then fun data => .then fun written => .then fun bytes => returns_pure ?_
  apply isResult_succeeded
  simp only [List.forall_mem_cons]
  exact ⟨isDetail_long (by decide) _, isDetail_long (by decide) _, by simp⟩

theorem returns_append (c : Settings 𝕜) (space : Namespace) :
    (append c space : Action σ ρ (List Record)).Returns (IsResult .append) := by
  refine .then fun path => .then fun size => .then fun data => .then fun written =>
    .then fun bytes => returns_pure ?_
  apply isResult_succeeded
  simp only [List.forall_mem_cons]
  exact ⟨isDetail_long (by decide) _, by simp⟩

theorem returns_delete (space : Namespace) :
    (delete space : Action σ ρ (List Record)).Returns (IsResult .delete) := by
  refine .then fun path => .then fun done => returns_pure ?_
  exact isResult_of_done done.isTruthy (by simp)

theorem returns_rename (space : Namespace) :
    (rename space : Action σ ρ (List Record)).Returns (IsResult .rename) := by
  refine .then fun source => .then fun target => .then fun done => returns_pure ?_
  exact isResult_of_done done.isTruthy (by simp)

theorem returns_read (c : Settings 𝕜) (space : Namespace) :
    (read c space : Action σ ρ (List Record)).Returns (IsResult .read) := by
  refine .then fun path => .then fun length => .then fun answer => .then fun verdict =>
    returns_pure ?_
  apply isResult_succeeded
  simp only [List.forall_mem_cons]
  exact ⟨isDetail_long (by decide) _, isDetail_long (by decide) _, isDetail_long (by decide) _,
    by simp⟩

theorem returns_ls (space : Namespace) :
    (ls space : Action σ ρ (List Record)).Returns (IsResult .ls) := by
  refine .then fun path => .then fun entries => .then fun count => returns_pure ?_
  apply isResult_succeeded
  simp only [List.forall_mem_cons]
  exact ⟨isDetail_long (by decide) _, by simp⟩

theorem returns_mkdir (space : Namespace) :
    (mkdir space : Action σ ρ (List Record)).Returns (IsResult .mkdir) := by
  refine .then fun path => .then fun done => returns_pure ?_
  apply isResult_of_done done.isTruthy
  simp only [List.forall_mem_cons]
  exact ⟨isDetail_long (by decide) _, by simp⟩

theorem returns_setReplication (polls : Nat) (c : Settings 𝕜) (space : Namespace) :
    (setReplication polls c space : Action σ ρ (List Record)).Returns
    (IsResult .setReplication) := by
  refine .then fun path => .then fun replicas => .then fun done => ?_
  split
  · exact .then fun start => .then fun _ => returns_pure (isResult_succeeded (by simp))
  · exact returns_pure (Or.inr rfl)

theorem returns_pause (c : Settings 𝕜) :
    (pause c : Action σ ρ (List Record)).Returns (IsReport .sleep) := by
  rw [pause]
  cases c.pause with
  | none => exact returns_throw _
  | some range =>
      exact .then fun ms => .then fun start => .then fun _ => .then fun time =>
        returns_pure (.succeeded [] (by simp) time)

theorem returns_perform (polls : Nat) (c : Settings 𝕜) (space : Namespace)
    (hkind : kind ≠ .sleep) :
    (perform polls c space kind : Action σ ρ (List Record)).Returns (IsResult kind) := by
  cases kind with
  | create => exact returns_create c space
  | append => exact returns_append c space
  | delete => exact returns_delete space
  | rename => exact returns_rename space
  | setReplication => exact returns_setReplication polls c space
  | read => exact returns_read c space
  | ls => exact returns_ls space
  | mkdir => exact returns_mkdir space
  | sleep => exact absurd rfl hkind

theorem returns_run (polls : Nat) (c : Settings 𝕜) (kind : Kind) :
    (run polls c kind : Action σ ρ (List Record)).Returns (IsReport kind) := by
  rw [run]
  split
  · rename_i hsleep
    rw [hsleep]
    exact returns_pause c
  · rename_i hkind
    refine .then fun space => .then fun start =>
      (returns_perform polls c space hkind).run.bind fun answer hanswer => ?_
    cases answer with
    | ok outputs =>
        refine .then fun ms => returns_pure ?_
        rcases hanswer outputs rfl with ⟨details, hdetails, rfl⟩ | rfl
        · exact .succeeded details hdetails ms
        · exact .missed ms
    | error fault =>
        dsimp only
        split
        · exact .then fun ms => returns_pure (.absent ms)
        · exact returns_throw fault

end Operation

end StorageLoad
