import StorageLoad.Proofs.Operation

/-!
How operations open: which call comes first, and where the source of random numbers stands from
then on.  Both follow from the source alone (`opens_run`), since everything is drawn before the
first call.
-/

namespace StorageLoad

namespace Course

variable {σ ρ α β : Type}

/-- If the course ends, it has drawn nothing; its events are in the journal. -/
def Still (course : Course σ ρ α) : Prop :=
  ∀ s a s', course s = some (a, s') →
    s'.random = s.random ∧ ∃ events : List Event, s'.journal = events.reverse ++ s.journal

variable {course : Course σ ρ α}

theorem Adds.still {post : α → List Event → Prop} (h : course.Adds post)
    (hrandom : ∀ s a s', course s = some (a, s') → s'.random = s.random) : course.Still := by
  intro s a s' hs
  obtain ⟨events, hjournal, -⟩ := h s a s' hs
  exact ⟨hrandom s a s' hs, events, hjournal⟩

theorem still_pure (a : α) : (pure a : Course σ ρ α).Still := by
  apply (adds_pure a).still
  intro s b s' hs
  obtain ⟨-, rfl⟩ := Prod.mk.inj (Option.some.inj hs)
  rfl

theorem still_endless : (endless : Course σ ρ α).Still := by
  intro s a s' hs
  cases hs

theorem still_note (e : Event) : (note e : Course σ ρ Unit).Still := by
  apply (adds_note e).still
  intro s b s' hs
  obtain ⟨-, rfl⟩ := Prod.mk.inj (Option.some.inj hs)
  rfl

theorem Still.bind {next : α → Course σ ρ β} (h : course.Still) (hnext : ∀ a, (next a).Still) :
    (course >>= next).Still := by
  intro s b s'' hs
  obtain ⟨a, s', hfirst, hrest⟩ := exists_of_bind hs
  obtain ⟨hrandom, first, hjournal⟩ := h s a s' hfirst
  obtain ⟨hrandom', rest, hjournal'⟩ := hnext a s' b s'' hrest
  refine ⟨hrandom'.trans hrandom, first ++ rest, ?_⟩
  rw [hjournal', hjournal, List.reverse_append, List.append_assoc]

variable [Surroundings σ]

theorem still_now : (now : Course σ ρ Int).Still := by
  apply adds_now.still
  intro s a s' hs
  obtain ⟨-, rfl⟩ := Prod.mk.inj (Option.some.inj hs)
  rfl

theorem still_elapsed (start : Int) : (elapsed start : Course σ ρ Int).Still :=
  still_now.bind fun _ => still_pure _

end Course

namespace Action

variable {σ ρ α β : Type} {action : Action σ ρ α} {next : α → Action σ ρ β}

/-- If the action ends, it has drawn nothing, whether it fails or not. -/
def Still (action : Action σ ρ α) : Prop :=
  Course.Still action.run

theorem still_of_run_eq_pure {answer : Outcome α} (h : action.run = pure answer) :
    action.Still := by
  rw [Still, h]
  exact Course.still_pure answer

theorem Still.bind (h : action.Still) (hnext : ∀ a, (next a).Still) :
    (action >>= next).Still := by
  rw [Still, ExceptT.run_bind]
  apply Course.Still.bind h
  intro answer
  cases answer with
  | error fault => exact Course.still_pure _
  | ok a => exact hnext a

theorem still_ofCourse {course : Course σ ρ α} (h : course.Still) : (ofCourse course).Still :=
  h.bind fun _ => Course.still_pure _

theorem still_note (e : Event) : (note e : Action σ ρ Unit).Still :=
  still_ofCourse (Course.still_note e)

variable [Surroundings σ]

theorem still_now : (now : Action σ ρ Int).Still :=
  still_ofCourse Course.still_now

theorem still_elapsed (start : Int) : (elapsed start : Action σ ρ Int).Still :=
  still_ofCourse (Course.still_elapsed start)

theorem still_call (request : Request) : (call request : Action σ ρ Reply).Still := by
  apply (addsOnly_call request : (call request : Action σ ρ Reply).AddsOnly fun _ => True).still
  intro s a s' hs
  obtain ⟨⟨answer, world⟩, -, heq⟩ := Option.map_eq_some_iff.mp hs
  obtain ⟨-, rfl⟩ := Prod.mk.inj heq
  rfl

theorem still_ask (request : Request) : (ask request : Action σ ρ Reply).Still :=
  (still_note _).bind fun _ => still_call request

theorem still_sleep (ms : Int) : (sleep ms : Action σ ρ Unit).Still := by
  refine (still_of_run_eq_pure rfl).bind fun _ => (still_note _).bind fun _ => ?_
  intro s a s' hs
  obtain ⟨-, rfl⟩ := Prod.mk.inj (Option.some.inj hs)
  exact ⟨rfl, [], rfl⟩

end Action

/-- The first call, if there is one, and the source of random numbers afterwards. -/
abbrev Opening (ρ : Type) := ρ → Option Request × ρ

namespace Opening

variable {ρ α : Type}

/-- No call at all. -/
def silent : Opening ρ :=
  fun r => (none, r)

def ask (request : Request) : Opening ρ :=
  fun r => (some request, r)

/-- Draws something and goes on with it. -/
def draw (f : ρ → α × ρ) (next : α → Opening ρ) : Opening ρ :=
  fun r => next (f r).1 (f r).2

/-- Goes on with what is there; without it, there is no call. -/
def ofOutcome (answer : Outcome α) (next : α → Opening ρ) : Opening ρ :=
  match answer with
  | .ok a => next a
  | .error _ => silent

/-- Draws something that may turn out to be impossible. -/
def drawOutcome (f : ρ → Outcome α × ρ) (next : α → Opening ρ) : Opening ρ :=
  draw f fun answer => ofOutcome answer next

end Opening

namespace Course

variable {σ ρ α β : Type} {course : Course σ ρ α} {next : α → Course σ ρ β} {opening : Opening ρ}

/-- If the course ends, it has opened as told. -/
def Opens (opening : Opening ρ) (course : Course σ ρ α) : Prop :=
  ∀ s a s', course s = some (a, s') →
    ∃ events : List Event, s'.journal = events.reverse ++ s.journal ∧
      (events.filterMap Event.call?).head? = (opening s.random).1 ∧
      s'.random = (opening s.random).2

/-- An event that is no call. -/
def IsOwn (e : Event) : Prop :=
  e.call? = none

theorem opens_of_still (h : course.Still) (hnone : course.AddsOnly IsOwn) :
    course.Opens .silent := by
  intro s a s' hs
  obtain ⟨events, hjournal, hevents⟩ := hnone s a s' hs
  refine ⟨events, hjournal, ?_, (h s a s' hs).1⟩
  rw [List.filterMap_eq_nil_iff.mpr hevents]
  rfl

theorem opens_pure (a : α) : (pure a : Course σ ρ α).Opens .silent :=
  opens_of_still (still_pure a) (addsOnly_pure a)

theorem opens_now [Surroundings σ] : (now : Course σ ρ Int).Opens .silent :=
  opens_of_still still_now (adds_now.addsOnly fun _ _ h => h)

theorem opens_elapsed [Surroundings σ] (start : Int) :
    (elapsed start : Course σ ρ Int).Opens .silent :=
  opens_of_still (still_elapsed start) ((adds_elapsed start).addsOnly fun _ _ h => h)

theorem Opens.draw (f : ρ → α × ρ) {o : α → Opening ρ} (hnext : ∀ a, (next a).Opens (o a)) :
    (Course.draw f >>= next).Opens (.draw f o) :=
  fun s b s'' hs => hnext (f s.random).1 { s with random := (f s.random).2 } b s'' hs

theorem Opens.after_silent (h : course.Opens .silent) (hnext : ∀ a, (next a).Opens opening) :
    (course >>= next).Opens opening := by
  intro s b s'' hs
  obtain ⟨a, s', hfirst, hrest⟩ := exists_of_bind hs
  obtain ⟨first, hjournal, hcalls, hstill⟩ := h s a s' hfirst
  obtain ⟨rest, hjournal', hopening, hrandom⟩ := hnext a s' b s'' hrest
  rw [hstill] at hopening hrandom
  refine ⟨first ++ rest, ?_, ?_, hrandom⟩
  · rw [hjournal', hjournal, List.reverse_append, List.append_assoc]
  · rw [List.filterMap_append, List.head?_append, hcalls]
    exact hopening

theorem Opens.before_silent (h : course.Opens opening) (hnext : ∀ a, (next a).Opens .silent) :
    (course >>= next).Opens opening := by
  intro s b s'' hs
  obtain ⟨a, s', hfirst, hrest⟩ := exists_of_bind hs
  obtain ⟨first, hjournal, hopening, hrandom⟩ := h s a s' hfirst
  obtain ⟨rest, hjournal', hcalls, hstill⟩ := hnext a s' b s'' hrest
  refine ⟨first ++ rest, ?_, ?_, ?_⟩
  · rw [hjournal', hjournal, List.reverse_append, List.append_assoc]
  · rw [List.filterMap_append, List.head?_append, hcalls, hopening]
    exact Option.or_none
  · rw [hstill]
    exact hrandom

theorem opens_ask {request : Request} (h : course.Still) :
    (note (.asked request) >>= fun _ => course).Opens (.ask request) := by
  intro s b s'' hs
  obtain ⟨hrandom, rest, hjournal⟩ := h { s with journal := .asked request :: s.journal } b s'' hs
  refine ⟨.asked request :: rest, ?_, rfl, hrandom⟩
  rw [hjournal, List.reverse_cons, List.append_assoc]
  rfl

end Course

namespace Action

variable {σ ρ α β : Type} {action : Action σ ρ α} {next : α → Action σ ρ β} {opening : Opening ρ}

/-- If the action ends, it has opened as told, whether it fails or not. -/
def Opens (opening : Opening ρ) (action : Action σ ρ α) : Prop :=
  Course.Opens opening action.run

theorem opens_pure (a : α) : (pure a : Action σ ρ α).Opens .silent :=
  Course.opens_pure _

theorem opens_throw (fault : Fault) : (throw fault : Action σ ρ α).Opens .silent :=
  Course.opens_pure _

theorem opens_lift (answer : Outcome α) {o : α → Opening ρ} (hnext : ∀ a, (next a).Opens (o a)) :
    (liftM answer >>= next).Opens (.ofOutcome answer o) := by
  cases answer with
  | error fault => exact opens_throw fault
  | ok a => exact hnext a

theorem opens_drawOutcome (f : ρ → Outcome α × ρ) {o : α → Opening ρ}
    (hnext : ∀ a, (next a).Opens (o a)) : (drawOutcome f >>= next).Opens (.drawOutcome f o) := by
  rw [Opens, ExceptT.run_bind]
  apply Course.Opens.draw
  intro answer
  cases answer with
  | error fault => exact Course.opens_pure _
  | ok a => exact hnext a

theorem opens_draw (f : ρ → α × ρ) {o : α → Opening ρ} (hnext : ∀ a, (next a).Opens (o a)) :
    (draw f >>= next).Opens (.draw f o) := by
  rw [Opens, draw, ofCourse, ExceptT.run_bind_lift]
  exact Course.Opens.draw f hnext

theorem opens_ofCourse {course : Course σ ρ α} (h : course.Opens .silent)
    (hnext : ∀ a, (next a).Opens opening) : (ofCourse course >>= next).Opens opening := by
  rw [Opens, ofCourse, ExceptT.run_bind_lift]
  exact h.after_silent hnext

theorem Opens.run_bind (h : action.Opens opening) {next : Outcome α → Action σ ρ β}
    (hnext : ∀ answer, (next answer).Opens .silent) :
    (ofCourse action.run >>= next).Opens opening := by
  rw [Opens, ofCourse, ExceptT.run_bind_lift]
  exact Course.Opens.before_silent h hnext

variable [Surroundings σ]

theorem opens_ask (request : Request) {next : Reply → Action σ ρ β}
    (h : ∀ reply, (next reply).Still) : (ask request >>= next).Opens (.ask request) := by
  rw [ask, bind_assoc, Opens, note, ofCourse, ExceptT.run_bind_lift]
  exact Course.opens_ask ((still_call request).bind h)

end Action

namespace Operation

open StorageLoad.Action

variable {σ ρ 𝕜 : Type} [RandomSource ρ] [Surroundings σ]

/-- How an operation opens in a namespace. -/
def opening (c : Settings 𝕜) (space : Namespace) : Kind → Opening ρ
  | .create =>
      .drawOutcome space.chooseFile fun path => .draw c.writeSize.draw fun size =>
        .draw c.replication.draw fun replication => .draw c.blockSize.draw fun blockSize =>
          .drawOutcome (Segment.draw size) fun data =>
            .ask (.create path data (.int replication) (.int blockSize))
  | .append =>
      .drawOutcome space.chooseFile fun path => .draw c.appendSize.draw fun size =>
        .drawOutcome (Segment.draw size) fun data => .ask (.append path data)
  | .delete => .drawOutcome space.chooseFile fun path => .ask (.delete path)
  | .rename =>
      .drawOutcome space.chooseFile fun source => .drawOutcome space.chooseFile fun target =>
        .ask (.rename source target)
  | .setReplication =>
      .drawOutcome space.chooseFile fun path => .draw c.replication.draw fun replicas =>
        .ask (.setReplication path (.int replicas))
  | .read =>
      .drawOutcome space.chooseFile fun path => .draw c.readSize.draw fun length =>
        .ask (.read path (.int length))
  | .ls => .drawOutcome space.chooseDirectory fun path => .ask (.listdir path)
  | .mkdir => .drawOutcome space.chooseDirectory fun path => .ask (.mkdirs path)
  | .sleep => .silent

omit [RandomSource ρ] in
theorem still_awaitReplicas (c : Settings 𝕜) (path : Path) (replicas start : Int) (polls : Nat) :
    (awaitReplicas c path replicas start polls : Action σ ρ Unit).Still := by
  induction polls with
  | zero => exact still_ofCourse Course.still_endless
  | succ polls ih =>
      rw [awaitReplicas]
      refine (still_ask _).bind fun factor => ?_
      split
      · exact (still_elapsed start).bind fun _ => still_note _
      · refine (still_elapsed start).bind fun elapsed => ?_
        split
        · exact still_of_run_eq_pure rfl
        · exact (still_sleep _).bind fun _ => ih

theorem opens_perform (polls : Nat) (c : Settings 𝕜) (space : Namespace) {kind : Kind}
    (hkind : kind ≠ .sleep) :
    (perform polls c space kind : Action σ ρ (List Record)).Opens (opening c space kind) := by
  cases kind with
  | create =>
      refine opens_drawOutcome _ fun path => opens_draw _ fun size =>
        opens_draw _ fun replication =>
        opens_draw _ fun blockSize => opens_drawOutcome _ fun data =>
          opens_ask _ fun written => ?_
      exact (still_of_run_eq_pure rfl).bind fun _ => still_of_run_eq_pure rfl
  | append =>
      refine opens_drawOutcome _ fun path => opens_draw _ fun size =>
        opens_drawOutcome _ fun data =>
        opens_ask _ fun written => ?_
      exact (still_of_run_eq_pure rfl).bind fun _ => still_of_run_eq_pure rfl
  | delete =>
      exact opens_drawOutcome _ fun path => opens_ask _ fun done => still_of_run_eq_pure rfl
  | rename =>
      exact opens_drawOutcome _ fun source => opens_drawOutcome _ fun target =>
        opens_ask _ fun done => still_of_run_eq_pure rfl
  | setReplication =>
      refine opens_drawOutcome _ fun path => opens_draw _ fun replicas =>
        opens_ask _ fun done => ?_
      split
      · exact still_now.bind fun start => (still_awaitReplicas c path replicas start polls).bind
          fun _ => still_of_run_eq_pure rfl
      · exact still_of_run_eq_pure rfl
  | read =>
      refine opens_drawOutcome _ fun path => opens_draw _ fun length =>
        opens_ask _ fun answer => ?_
      exact (still_of_run_eq_pure rfl).bind fun _ => still_of_run_eq_pure rfl
  | ls =>
      refine opens_drawOutcome _ fun path => opens_ask _ fun entries => ?_
      exact (still_of_run_eq_pure rfl).bind fun _ => still_of_run_eq_pure rfl
  | mkdir =>
      exact opens_drawOutcome _ fun path => opens_ask _ fun done => still_of_run_eq_pure rfl
  | sleep => exact absurd rfl hkind

/-- How the operation of a kind opens; where it cannot be set up, there is no call. -/
def openingOf (c : Settings 𝕜) (kind : Kind) : Opening ρ :=
  if kind = .sleep then .silent else .ofOutcome c.space fun space => opening c space kind

/-- Operations open as their source of random numbers has it, whatever they are answered. -/
theorem opens_run (polls : Nat) (c : Settings 𝕜) (kind : Kind)
    (hpause : kind = .sleep → c.pause.isNone) :
    (run polls c kind : Action σ ρ (List Record)).Opens (openingOf c kind) := by
  rw [run, openingOf]
  split
  · rename_i hsleep
    rw [pause, Option.isNone_iff_eq_none.mp (hpause hsleep)]
    exact opens_throw _
  · rename_i hkind
    apply opens_lift
    intro space
    apply opens_ofCourse Course.opens_now
    intro start
    apply (opens_perform polls c space hkind).run_bind
    intro answer
    cases answer with
    | ok outputs => exact opens_ofCourse (Course.opens_elapsed start) fun ms => opens_pure _
    | error fault =>
        dsimp only
        split
        · exact opens_ofCourse (Course.opens_elapsed start) fun ms => opens_pure _
        · exact opens_throw fault

end Operation

end StorageLoad
