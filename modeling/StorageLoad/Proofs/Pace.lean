import StorageLoad.Proofs.Worker

/-!
How time goes by in a course of events.  The clock of some surroundings is not looked into: all
that counts is which times are past, and that none of them is to come again
(`Surroundings.Paces`).  Courses are followed from one such time to another (`Course.Spans`), and
every call of an operation takes its time (`lasts_perform`).
-/

namespace StorageLoad

/-- The lengths of sleeps with a configuration: between two looks at a replication factor, and in
pauses. -/
def Settings.Sleeps {𝕜 : Type} (c : Settings 𝕜) (ms : Int) : Prop :=
  ms = c.pollMs ∨ ∃ range ∈ c.pause, ms ∈ range

namespace Surroundings

variable {σ : Type} [Surroundings σ] {sleeps : Int → Prop}

/-- What can become of a world, with sleeps of some lengths only. -/
inductive Leads (sleeps : Int → Prop) : σ → σ → Prop
  | refl (w : σ) : Leads sleeps w w
  | now {w w' : σ} (h : Leads sleeps (Surroundings.now w).2 w') : Leads sleeps w w'
  | call {request : Request} {answer : Outcome Reply} {w next w' : σ}
      (hcall : Surroundings.call request w = some (answer, next)) (h : Leads sleeps next w') :
      Leads sleeps w w'
  | sleep {ms : Int} (hms : sleeps ms) {w w' : σ}
      (h : Leads sleeps (Surroundings.sleep ms w).2 w') :
      Leads sleeps w w'

/-- Whatever becomes of a world, no reading of the clock is below an earlier one. -/
def NeverBack (sleeps : Int → Prop) (world : σ) : Prop :=
  ∀ w w' : σ, Leads sleeps world w → Leads sleeps (Surroundings.now w).2 w' →
    (Surroundings.now w).1 ≤ (Surroundings.now w').1

/-- Which times are past: the clock shows none below them, what it shows is past from then on, and
a call of the storage service takes some time. -/
structure Paces (sleeps : Int → Prop) (past : Int → σ → Prop) (cost : Nat) : Prop where
  le_reading : ∀ t w, past t w → t ≤ (Surroundings.now w).1
  reading : ∀ t w, past t w → past (Surroundings.now w).1 (Surroundings.now w).2
  call : ∀ t request w answer w', past t w → Surroundings.call request w = some (answer, w') →
    past (t + cost) w'
  sleep : ∀ t ms w, sleeps ms → past t w → past t (Surroundings.sleep ms w).2

/-- Where the clock never goes back, a time is past when the clock will not show less any more. -/
def IsOver (sleeps : Int → Prop) (t : Int) (w : σ) : Prop :=
  NeverBack sleeps w ∧ ∀ w', Leads sleeps w w' → t ≤ (Surroundings.now w').1

theorem IsOver.mono {t : Int} {w next : σ} (h : IsOver sleeps t w)
    (hleads : ∀ w', Leads sleeps next w' → Leads sleeps w w') : IsOver sleeps t next :=
  ⟨fun v v' hv => h.1 v v' (hleads v hv), fun w' hw => h.2 w' (hleads w' hw)⟩

theorem NeverBack.isOver {w : σ} (h : NeverBack sleeps w) :
    IsOver sleeps (Surroundings.now w).1 (Surroundings.now w).2 :=
  ⟨fun v v' hv => h v v' (.now hv), fun w' hw => h w w' (.refl w) hw⟩

theorem paces_isOver : Paces sleeps (IsOver (σ := σ) sleeps) 0 where
  le_reading := fun _ w h => h.2 w (.refl w)
  reading := fun _ _ h => h.1.isOver
  call := fun t _ _ _ _ h hcall => (Int.add_zero t).symm ▸ h.mono fun _ => .call hcall
  sleep := fun _ _ _ hms h => h.mono fun _ => .sleep hms

end Surroundings

namespace Event

/-- The number of calls of the storage service. -/
def calls (events : List Event) : Int :=
  (events.filterMap call?).length

theorem calls_append (events rest : List Event) :
    calls (events ++ rest) = calls events + calls rest := by
  rw [calls, List.filterMap_append, List.length_append, Int.natCast_add]
  rfl

end Event

namespace Course

open Surroundings

variable {σ ρ α β : Type} {sleeps : Int → Prop} {past : Int → σ → Prop} {t : Int}

/-- If the course ends, starting when a time is past, then another time is past from which the
condition holds for the result, and for the events that were added. -/
def Spans (past : Int → σ → Prop) (t : Int) (course : Course σ ρ α)
    (post : α → List Event → Int → Prop) : Prop :=
  ∀ s a s', past t s.world → course s = some (a, s') →
    ∃ events t', s'.journal = events.reverse ++ s.journal ∧ t ≤ t' ∧ past t' s'.world ∧
      post a events t'

variable {course : Course σ ρ α} {next : α → Course σ ρ β} {post : α → List Event → Int → Prop}
  {post' : β → List Event → Int → Prop}

theorem Spans.mono {post' : α → List Event → Int → Prop} (h : Spans past t course post)
    (himp : ∀ a events t', t ≤ t' → post a events t' → post' a events t') :
    Spans past t course post' := by
  intro s a s' hpast hs
  obtain ⟨events, t', hjournal, hle, hpast', hpost⟩ := h s a s' hpast hs
  exact ⟨events, t', hjournal, hle, hpast', himp a events t' hle hpost⟩

theorem Spans.and_adds {added : α → List Event → Prop} (h : Spans past t course post)
    (hadds : course.Adds added) :
    Spans past t course fun a events t' => post a events t' ∧ added a events := by
  intro s a s' hpast hs
  obtain ⟨events, t', hjournal, hle, hpast', hpost⟩ := h s a s' hpast hs
  obtain ⟨events', hjournal', hadded⟩ := hadds s a s' hs
  obtain rfl := events_eq_of_journal (hjournal.symm.trans hjournal')
  exact ⟨events, t', hjournal, hle, hpast', hpost, hadded⟩

theorem Spans.and_result {good : α → Prop} (h : Spans past t course post)
    (hgood : ∀ s a s', course s = some (a, s') → good a) :
    Spans past t course fun a events t' => post a events t' ∧ good a := by
  intro s a s' hpast hs
  obtain ⟨events, t', hjournal, hle, hpast', hpost⟩ := h s a s' hpast hs
  exact ⟨events, t', hjournal, hle, hpast', hpost, hgood s a s' hs⟩

theorem spans_pure {a : α} (h : post a [] t) : Spans past t (pure a : Course σ ρ α) post := by
  intro s b s' hpast hs
  obtain ⟨rfl, rfl⟩ := Prod.mk.inj (Option.some.inj hs)
  exact ⟨[], t, rfl, Int.le_refl _, hpast, h⟩

theorem Spans.bind (h : Spans past t course post)
    (hnext : ∀ a first t', t ≤ t' → post a first t' →
      Spans past t' (next a) fun b rest t'' => post' b (first ++ rest) t'') :
    Spans past t (course >>= next) post' := by
  intro s b s'' hpast hs
  obtain ⟨a, s', hfirst, hrest⟩ := exists_of_bind hs
  obtain ⟨first, t', hjournal, hle, hpast', hpost⟩ := h s a s' hpast hfirst
  obtain ⟨rest, t'', hjournal', hle', hpast'', hpost'⟩ :=
    hnext a first t' hle hpost s' b s'' hpast' hrest
  refine ⟨first ++ rest, t'', ?_, Int.le_trans hle hle', hpast'', hpost'⟩
  rw [hjournal', hjournal, List.reverse_append, List.append_assoc]

theorem spans_endless : Spans past t (endless : Course σ ρ α) post := by
  intro s a s' hpast hs
  cases hs

theorem spans_note (e : Event) :
    Spans past t (note e : Course σ ρ Unit) fun _ events t' => events = [e] ∧ t' = t := by
  intro s a s' hpast hs
  obtain ⟨-, rfl⟩ := Prod.mk.inj (Option.some.inj hs)
  exact ⟨[e], t, rfl, Int.le_refl _, hpast, rfl, rfl⟩

theorem spans_draw (f : ρ → α × ρ) :
    Spans past t (draw f : Course σ ρ α) fun a events t' => events = [] ∧ t' = t ∧
      ∃ r, a = (f r).1 := by
  intro s a s' hpast hs
  obtain ⟨rfl, rfl⟩ := Prod.mk.inj (Option.some.inj hs)
  exact ⟨[], t, rfl, Int.le_refl _, hpast, rfl, rfl, s.random, rfl⟩

variable [Surroundings σ] {cost : Nat}

theorem spans_now (h : Paces sleeps past cost) (t : Int) :
    Spans past t (now : Course σ ρ Int) fun time events t' => events = [] ∧ time = t' := by
  intro s a s' hpast hs
  obtain ⟨rfl, rfl⟩ := Prod.mk.inj (Option.some.inj hs)
  exact ⟨[], _, rfl, h.le_reading t s.world hpast, h.reading t s.world hpast, rfl, rfl⟩

theorem spans_elapsed (h : Paces sleeps past cost) (start t : Int) :
    Spans past t (elapsed start : Course σ ρ Int) fun ms events t' =>
      events = [] ∧ ms = Clock.elapsed start t' := by
  apply (spans_now h t).bind
  rintro time _ t' - ⟨rfl, rfl⟩
  exact spans_pure ⟨rfl, rfl⟩

theorem Spans.exists_of_first {e : Event} {next : Int → Course σ ρ α}
    {added : α → List Event → Prop} {s s' : Scene σ ρ} {a : α}
    (hnext : ∀ start, Spans past start (next start) fun a events _ => added a events)
    (hfirst : past (Surroundings.now s.world).1 (Surroundings.now s.world).2)
    (hs : (note e >>= fun _ => now >>= next) s = some (a, s')) :
    ∃ events, s'.journal = (e :: events).reverse ++ s.journal ∧ added a events := by
  obtain ⟨events, -, hjournal, -, -, hadded⟩ :=
    hnext _ ⟨_, s.random, e :: s.journal⟩ a s' hfirst hs
  refine ⟨events, ?_, hadded⟩
  rw [hjournal, List.reverse_cons, List.append_assoc]
  rfl

end Course

namespace Action

variable {σ ρ α β : Type}

section Law

variable [Surroundings σ]

/-- A relation between actions that goes along with `bind`, and in which every answer, draw and
call stands to itself. -/
structure IsLaw (R : ∀ {α : Type}, Action σ ρ α → Action σ ρ α → Prop) : Prop where
  answer : ∀ {α : Type} (answer : Outcome α), R (liftM answer) (liftM answer)
  draw : ∀ {α : Type} (f : ρ → Outcome α × ρ), R (drawOutcome f) (drawOutcome f)
  ask : ∀ request, R (ask request) (ask request)
  bind : ∀ {α β : Type} {action action' : Action σ ρ α} {next next' : α → Action σ ρ β},
    R action action' → (∀ a, R (next a) (next' a)) → R (action >>= next) (action' >>= next')

variable {R : ∀ {α : Type}, Action σ ρ α → Action σ ρ α → Prop}

theorem IsLaw.of_run_eq_pure (h : IsLaw R) {action : Action σ ρ α} {answer : Outcome α}
    (heq : action.run = pure answer) : R action action := by
  obtain rfl : action = liftM answer := heq
  exact h.answer answer

theorem IsLaw.drawn (h : IsLaw R) (f : ρ → α × ρ) : R (Action.draw f) (Action.draw f) :=
  h.draw fun r => (.ok (f r).1, (f r).2)

end Law

theorem run_ofCourse (course : Course σ ρ α) :
    (ofCourse course).run = course >>= fun a => pure (.ok a) :=
  rfl

/-- If the action ends, it has lasted as long as its calls take. -/
def Lasts (past : Int → σ → Prop) (cost : Nat) (action : Action σ ρ α) : Prop :=
  ∀ t, Course.Spans past t action.run fun _ events t' => t + cost * Event.calls events ≤ t'

variable {past : Int → σ → Prop} {cost : Nat}

theorem lasts_of_calls_eq_zero {action : Action σ ρ α}
    (h : ∀ t, Course.Spans past t action.run fun _ events _ => Event.calls events = 0) :
    action.Lasts past cost := by
  intro t
  apply (h t).mono
  intro answer events t' hle hcalls
  rwa [hcalls, Int.mul_zero, Int.add_zero]

theorem lasts_lift (answer : Outcome α) : (liftM answer : Action σ ρ α).Lasts past cost :=
  lasts_of_calls_eq_zero fun _ => Course.spans_pure rfl

theorem lasts_ofCourse {course : Course σ ρ α}
    (h : ∀ t, Course.Spans past t course fun _ events _ => Event.calls events = 0) :
    (ofCourse course : Action σ ρ α).Lasts past cost := by
  apply lasts_of_calls_eq_zero
  intro t
  rw [run_ofCourse]
  apply (h t).bind
  intro a first t' _ hcalls
  apply Course.spans_pure
  rw [Event.calls_append, hcalls]
  rfl

theorem lasts_note {e : Event} (he : e.call? = none) :
    (note e : Action σ ρ Unit).Lasts past cost := by
  apply lasts_ofCourse
  intro t
  apply (Course.spans_note e).mono
  rintro _ _ t' - ⟨rfl, -⟩
  simp [Event.calls, he]

theorem lasts_drawOutcome (f : ρ → Outcome α × ρ) :
    (drawOutcome f : Action σ ρ α).Lasts past cost := by
  apply lasts_of_calls_eq_zero
  intro t
  apply (Course.spans_draw f).mono
  rintro _ _ t' - ⟨rfl, -⟩
  rfl

theorem Lasts.bind {action : Action σ ρ α} {next : α → Action σ ρ β} (h : action.Lasts past cost)
    (hnext : ∀ a, (next a).Lasts past cost) : (action >>= next).Lasts past cost := by
  intro t
  rw [ExceptT.run_bind]
  apply (h t).bind
  intro answer first t' _ hfirst
  cases answer with
  | error fault =>
      apply Course.spans_pure
      rwa [List.append_nil]
  | ok a =>
      apply (hnext a t').mono
      intro b rest t'' _ hrest
      rw [Event.calls_append, Int.mul_add]
      omega

variable [Surroundings σ] {sleeps : Int → Prop}

theorem spans_ask (h : Surroundings.Paces sleeps past cost) (request : Request) (t : Int) :
    Course.Spans past t (ask request : Action σ ρ Reply).run fun _ events t' =>
      events = [.asked request] ∧ t' = t + cost := by
  intro s answer s' hpast hs
  obtain ⟨⟨reply, world⟩, hcall, heq⟩ := Option.map_eq_some_iff.mp hs
  obtain ⟨-, rfl⟩ := Prod.mk.inj heq
  exact ⟨[.asked request], t + cost, rfl, by omega,
    h.call t request s.world reply world hpast hcall, rfl, rfl⟩

theorem lasts_ask (h : Surroundings.Paces sleeps past cost) (request : Request) :
    (ask request : Action σ ρ Reply).Lasts past cost := by
  intro t
  apply (spans_ask h request t).mono
  rintro _ _ t' - ⟨rfl, rfl⟩
  change t + cost * 1 ≤ t + cost
  omega

theorem lasts_now (h : Surroundings.Paces sleeps past cost) :
    (now : Action σ ρ Int).Lasts past cost := by
  apply lasts_ofCourse
  intro t
  apply (Course.spans_now h t).mono
  rintro _ _ t' - ⟨rfl, -⟩
  rfl

theorem lasts_elapsed (h : Surroundings.Paces sleeps past cost) (start : Int) :
    (elapsed start : Action σ ρ Int).Lasts past cost := by
  apply lasts_ofCourse
  intro t
  apply (Course.spans_elapsed h start t).mono
  rintro _ _ t' - ⟨rfl, -⟩
  rfl

theorem lasts_sleep (h : Surroundings.Paces sleeps past cost) {ms : Int} (hms : sleeps ms) :
    (sleep ms : Action σ ρ Unit).Lasts past cost := by
  apply (lasts_lift _).bind
  intro _
  apply (lasts_note rfl).bind
  intro _ t s answer s' hpast hs
  obtain ⟨-, rfl⟩ := Prod.mk.inj (Option.some.inj hs)
  refine ⟨[], t, rfl, Int.le_refl _, h.sleep t ms s.world hms hpast, ?_⟩
  change t + cost * 0 ≤ t
  omega

theorem isLaw_lasts (h : Surroundings.Paces sleeps past cost) :
    IsLaw fun {α} (action _ : Action σ ρ α) => action.Lasts past cost where
  answer := lasts_lift
  draw := lasts_drawOutcome
  ask := lasts_ask h
  bind := Lasts.bind

section Passing

variable {t : Int} {action : Action σ ρ α} {post : α → Int → Prop}

omit [Surroundings σ]

/-- If the action returns, starting when a time is past, then another time is past from which the
condition holds for what it returns. -/
def Passes (past : Int → σ → Prop) (t : Int) (action : Action σ ρ α) (post : α → Int → Prop) :
    Prop :=
  Course.Spans past t action.run fun answer _ t' => ∀ a, answer = .ok a → post a t'

theorem passes_pure {a : α} (h : post a t) : (pure a : Action σ ρ α).Passes past t post := by
  apply Course.spans_pure
  intro b hb
  rwa [← Except.ok.inj hb]

theorem passes_throw (fault : Fault) : (throw fault : Action σ ρ α).Passes past t post := by
  apply Course.spans_pure
  intro a ha
  cases ha

theorem passes_ofCourse {course : Course σ ρ α}
    (h : Course.Spans past t course fun a _ t' => post a t') :
    (ofCourse course).Passes past t post := by
  rw [Passes, run_ofCourse]
  apply h.bind
  intro a first t' _ hpost
  exact passes_pure hpost

theorem passes_lift (answer : Outcome α) :
    (liftM answer : Action σ ρ α).Passes past t fun a t' => answer = .ok a ∧ t' = t :=
  Course.spans_pure fun _ ha => ⟨ha, rfl⟩

theorem passes_draw (f : ρ → α × ρ) :
    (draw f : Action σ ρ α).Passes past t fun a t' => t' = t ∧ ∃ r, a = (f r).1 := by
  apply passes_ofCourse
  exact (Course.spans_draw f).mono fun _ _ _ _ hpost => hpost.2

theorem Passes.bind {next : α → Action σ ρ β} {post' : β → Int → Prop}
    (h : action.Passes past t post)
    (hnext : ∀ a t', t ≤ t' → post a t' → (next a).Passes past t' post') :
    (action >>= next).Passes past t post' := by
  rw [Passes, ExceptT.run_bind]
  apply Course.Spans.bind h
  intro answer first t' hle hpost
  cases answer with
  | error fault => exact passes_throw fault
  | ok a => exact hnext a t' hle (hpost a rfl)

theorem Lasts.bind_passes {next : α → Action σ ρ β} {post' : β → Int → Prop}
    (h : action.Lasts past cost) (hnext : ∀ a t', t ≤ t' → (next a).Passes past t' post') :
    (action >>= next).Passes past t post' := by
  have hany : action.Passes past t fun _ _ => True := (h t).mono fun _ _ _ _ _ _ _ => trivial
  exact hany.bind fun a t' hle _ => hnext a t' hle

end Passing

theorem passes_now (h : Surroundings.Paces sleeps past cost) (t : Int) :
    (now : Action σ ρ Int).Passes past t fun time t' => time = t' := by
  apply passes_ofCourse
  exact (Course.spans_now h t).mono fun _ _ _ _ hpost => hpost.2

theorem passes_elapsed (h : Surroundings.Paces sleeps past cost) (start t : Int) :
    (elapsed start : Action σ ρ Int).Passes past t fun ms t' => ms = Clock.elapsed start t' := by
  apply passes_ofCourse
  exact (Course.spans_elapsed h start t).mono fun _ _ _ _ hpost => hpost.2

end Action

namespace Operation

open StorageLoad.Action

variable {σ ρ 𝕜 : Type} [RandomSource ρ] [Surroundings σ]
  {R : ∀ {α : Type}, Action σ ρ α → Action σ ρ α → Prop}

theorem isLaw_perform (h : IsLaw R) (polls polls' : Nat) {c : Settings 𝕜}
    (hwait : ∀ path replicas,
      R (do awaitReplicas c path replicas (← Action.now) polls)
        (do awaitReplicas c path replicas (← Action.now) polls'))
    (space : Namespace) {kind : Kind} (hkind : kind ≠ .sleep) :
    R (perform polls c space kind) (perform polls' c space kind) := by
  cases kind with
  | create =>
      refine h.bind (h.draw _) fun path => h.bind (h.drawn _) fun size =>
        h.bind (h.drawn _) fun replication =>
        h.bind (h.drawn _) fun blockSize => h.bind (h.draw _) fun data =>
          h.bind (h.ask _) fun written => ?_
      exact h.bind (h.of_run_eq_pure rfl) fun _ => h.of_run_eq_pure rfl
  | append =>
      refine h.bind (h.draw _) fun path => h.bind (h.drawn _) fun size =>
        h.bind (h.draw _) fun data =>
        h.bind (h.ask _) fun written => ?_
      exact h.bind (h.of_run_eq_pure rfl) fun _ => h.of_run_eq_pure rfl
  | delete =>
      exact h.bind (h.draw _) fun path => h.bind (h.ask _) fun done => h.of_run_eq_pure rfl
  | rename =>
      exact h.bind (h.draw _) fun source => h.bind (h.draw _) fun target =>
        h.bind (h.ask _) fun done =>
        h.of_run_eq_pure rfl
  | setReplication =>
      refine h.bind (h.draw _) fun path => h.bind (h.drawn _) fun replicas =>
        h.bind (h.ask _) fun done => ?_
      split
      · have hreport : R (pure [succeeded .setReplication]) (pure [succeeded .setReplication]) :=
          h.of_run_eq_pure rfl
        have hsettled := h.bind (hwait path replicas) fun _ => hreport
        rwa [bind_assoc, bind_assoc] at hsettled
      · exact h.of_run_eq_pure rfl
  | read =>
      refine h.bind (h.draw _) fun path => h.bind (h.drawn _) fun length =>
        h.bind (h.ask _) fun answer => ?_
      exact h.bind (h.of_run_eq_pure rfl) fun _ => h.of_run_eq_pure rfl
  | ls =>
      refine h.bind (h.draw _) fun path => h.bind (h.ask _) fun entries => ?_
      exact h.bind (h.of_run_eq_pure rfl) fun _ => h.of_run_eq_pure rfl
  | mkdir => exact h.bind (h.draw _) fun path => h.bind (h.ask _) fun done => h.of_run_eq_pure rfl
  | sleep => exact absurd rfl hkind

section Lasting

variable {past : Int → σ → Prop} {cost : Nat}

omit [RandomSource ρ] in
theorem lasts_awaitReplicas {c : Settings 𝕜} (h : Surroundings.Paces c.Sleeps past cost)
    (path : Path) (replicas start : Int) (polls : Nat) :
    (awaitReplicas c path replicas start polls : Action σ ρ Unit).Lasts past cost := by
  induction polls with
  | zero => exact lasts_ofCourse fun _ => Course.spans_endless
  | succ polls ih =>
      rw [awaitReplicas]
      refine (lasts_ask h _).bind fun factor => ?_
      split
      · exact (lasts_elapsed h start).bind fun _ => lasts_note rfl
      · refine (lasts_elapsed h start).bind fun elapsed => ?_
        split
        · exact lasts_lift _
        · exact (lasts_sleep h (Or.inl rfl)).bind fun _ => ih

theorem lasts_perform {c : Settings 𝕜} (h : Surroundings.Paces c.Sleeps past cost) (polls : Nat)
    (space : Namespace) {kind : Kind} (hkind : kind ≠ .sleep) :
    (perform polls c space kind : Action σ ρ (List Record)).Lasts past cost := by
  have hwait : ∀ path replicas,
      (do awaitReplicas c path replicas (← Action.now) polls : Action σ ρ Unit).Lasts past cost :=
    fun path replicas => (lasts_now h).bind fun start =>
      lasts_awaitReplicas h path replicas start polls
  exact isLaw_perform (isLaw_lasts h) polls polls hwait space hkind

end Lasting

end Operation

namespace Worker

open Course

variable {σ ρ : Type} {past : Int → σ → Prop} {t : Int}

theorem spans_emitAll (outputs : List Record) :
    Spans past t (outputs.forM emit : Action σ ρ Unit).run fun _ events t' =>
      events = (sentOf (.ok outputs)).map Event.emitted ∧ t' = t := by
  induction outputs with
  | nil => exact spans_pure ⟨rfl, rfl⟩
  | cons output outputs ih =>
      rw [run_emitAll_cons]
      cases htext : output.text with
      | error fault =>
          apply spans_pure
          simp [sentOf, htext, Except.isOk, Except.toBool]
      | ok text =>
          apply (spans_note _).bind
          rintro _ _ t' - ⟨rfl, rfl⟩
          apply ih.mono
          rintro _ events t' - ⟨rfl, rfl⟩
          simp [sentOf, htext, Except.isOk, Except.toBool]

end Worker

end StorageLoad
