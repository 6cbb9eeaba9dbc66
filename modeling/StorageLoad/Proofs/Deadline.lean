import StorageLoad.Proofs.Attempt
import StorageLoad.Proofs.Config.WellFormed
import StorageLoad.Proofs.Demand
import StorageLoad.Proofs.Opening
import StorageLoad.Proofs.Pace

/-!
Runs end in time.  With a clock that every call moves on, an operation that makes a call takes
time, waiting for replicas ends, and so do the rounds of a worker: no run selects more operations
than its time has milliseconds, and rounds and answers beyond that are never needed
(`ends_in_time`).
-/

namespace StorageLoad

namespace Surroundings

variable {σ : Type} [Surroundings σ]

/-- A storage service that answers every call, and a clock for which the time is past that every
call moves on, and nothing moves back. -/
structure IsTicking (time : σ → Int) : Prop where
  le_reading : ∀ w, time w ≤ (Surroundings.now w).1
  reading_le : ∀ w, (Surroundings.now w).1 ≤ time (Surroundings.now w).2
  call : ∀ request w, ∃ answer w', Surroundings.call request w = some (answer, w') ∧
    time w + 1 ≤ time w'
  sleep : ∀ ms w, 0 ≤ ms → time w ≤ time (Surroundings.sleep ms w).2

variable {time : σ → Int} {sleeps : Int → Prop}

theorem IsTicking.paces (h : IsTicking time) (hsleeps : ∀ ms, sleeps ms → 0 ≤ ms) :
    Paces sleeps (fun t w => t ≤ time w) 1 where
  le_reading := fun _ w hpast => Int.le_trans hpast (h.le_reading w)
  reading := fun _ w _ => h.reading_le w
  call := by
    intro t request w answer w' hpast hcall
    obtain ⟨answer', next, hcall', htime⟩ := h.call request w
    obtain ⟨-, rfl⟩ := Prod.mk.inj (Option.some.inj (hcall.symm.trans hcall'))
    exact Int.le_trans (Int.add_le_add_right hpast 1) htime
  sleep := fun _ ms w hms hpast => Int.le_trans hpast (h.sleep ms w (hsleeps ms hms))

/-- Every call is answered, and takes a millisecond. -/
structure MovesOn (sleeps : Int → Prop) (past : Int → σ → Prop) :
    Prop extends Paces sleeps past 1 where
  exists_call : ∀ request (w : σ), ∃ result, Surroundings.call request w = some result

theorem IsTicking.movesOn (h : IsTicking time) (hsleeps : ∀ ms, sleeps ms → 0 ≤ ms) :
    MovesOn sleeps fun t w => t ≤ time w := by
  refine ⟨h.paces hsleeps, fun request w => ?_⟩
  obtain ⟨answer, next, hcall, -⟩ := h.call request w
  exact ⟨(answer, next), hcall⟩

end Surroundings

namespace Course

variable {σ ρ α β : Type} {past : Int → σ → Prop} {t : Int}

/-- Starting when a time is past, both courses end, and in the same way. -/
def Ends (past : Int → σ → Prop) (t : Int) (course course' : Course σ ρ α) : Prop :=
  ∀ s, past t s.world → ∃ result, course s = some result ∧ course' s = some result

variable {course course' : Course σ ρ α} {next next' : α → Course σ ρ β}
  {post : α → List Event → Int → Prop}

theorem ends_of_isSome (h : ∀ s, ∃ result, course s = some result) :
    Ends past t course course := by
  intro s _
  obtain ⟨result, hresult⟩ := h s
  exact ⟨result, hresult, hresult⟩

theorem ends_pure (a : α) : Ends past t (pure a : Course σ ρ α) (pure a) :=
  ends_of_isSome fun _ => ⟨_, rfl⟩

theorem ends_note (e : Event) : Ends past t (note e : Course σ ρ Unit) (note e) :=
  ends_of_isSome fun _ => ⟨_, rfl⟩

theorem ends_draw (f : ρ → α × ρ) : Ends past t (draw f : Course σ ρ α) (draw f) :=
  ends_of_isSome fun _ => ⟨_, rfl⟩

theorem ends_elapsed [Surroundings σ] (start : Int) :
    Ends past t (elapsed start : Course σ ρ Int) (elapsed start) :=
  ends_of_isSome fun _ => ⟨_, rfl⟩

theorem ends_now [Surroundings σ] : Ends past t (now : Course σ ρ Int) now :=
  ends_of_isSome fun _ => ⟨_, rfl⟩

theorem Ends.bind (h : Ends past t course course') (hspans : Spans past t course post)
    (hnext : ∀ a events t', t ≤ t' → post a events t' → Ends past t' (next a) (next' a)) :
    Ends past t (course >>= next) (course' >>= next') := by
  intro s hpast
  obtain ⟨⟨a, s'⟩, hfirst, hfirst'⟩ := h s hpast
  obtain ⟨events, t', -, hle, hpast', hpost⟩ := hspans s a s' hpast hfirst
  obtain ⟨result, hrest, hrest'⟩ := hnext a events t' hle hpost s' hpast'
  refine ⟨result, ?_, ?_⟩
  · exact Option.bind_eq_some_iff.mpr ⟨(a, s'), hfirst, hrest⟩
  · exact Option.bind_eq_some_iff.mpr ⟨(a, s'), hfirst', hrest'⟩

/-- Starting when a time is past, both courses end in the same way, and as the condition says. -/
def Comes (past : Int → σ → Prop) (t : Int) (course course' : Course σ ρ α)
    (post : α → List Event → Int → Prop) : Prop :=
  Spans past t course post ∧ Ends past t course course'

theorem Comes.mono {post' : α → List Event → Int → Prop} (h : Comes past t course course' post)
    (himp : ∀ a events t', t ≤ t' → post a events t' → post' a events t') :
    Comes past t course course' post' :=
  ⟨h.1.mono himp, h.2⟩

theorem Comes.bind {post' : β → List Event → Int → Prop} (h : Comes past t course course' post)
    (hnext : ∀ a first t', t ≤ t' → post a first t' →
      Comes past t' (next a) (next' a) fun b rest t'' => post' b (first ++ rest) t'') :
    Comes past t (course >>= next) (course' >>= next') post' :=
  ⟨h.1.bind fun a first t' hle hpost => (hnext a first t' hle hpost).1,
    h.2.bind h.1 fun a first t' hle hpost => (hnext a first t' hle hpost).2⟩

theorem comes_pure {a : α} (h : post a [] t) :
    Comes past t (pure a : Course σ ρ α) (pure a) post :=
  ⟨spans_pure h, ends_pure a⟩

theorem comes_note (e : Event) :
    Comes past t (note e : Course σ ρ Unit) (note e) fun _ events t' => events = [e] ∧ t' = t :=
  ⟨spans_note e, ends_note e⟩

end Course

namespace Action

variable {σ ρ α β : Type} {past : Int → σ → Prop} {t : Int}

/-- Whenever they start, the actions end in the same way, and last as long as their calls, a
millisecond each. -/
def Ends (past : Int → σ → Prop) (action action' : Action σ ρ α) : Prop :=
  action.Lasts past 1 ∧ ∀ t, Course.Ends past t action.run action'.run

variable {action action' : Action σ ρ α} {next next' : α → Action σ ρ β}

theorem Ends.run_bind {post : Outcome α → List Event → Int → Prop}
    (h : Course.Ends past t action.run action'.run) (hspans : Course.Spans past t action.run post)
    (hnext : ∀ a events t', t ≤ t' → post (.ok a) events t' →
      Course.Ends past t' (next a).run (next' a).run) :
    Course.Ends past t (action >>= next).run (action' >>= next').run := by
  rw [ExceptT.run_bind, ExceptT.run_bind]
  apply Course.Ends.bind h hspans
  intro answer events t' hle hpost
  cases answer with
  | error fault => exact Course.ends_pure _
  | ok a => exact hnext a events t' hle hpost

theorem Ends.bind (h : Ends past action action') (hnext : ∀ a, Ends past (next a) (next' a)) :
    Ends past (action >>= next) (action' >>= next') := by
  refine ⟨h.1.bind fun a => (hnext a).1, fun t => ?_⟩
  exact Ends.run_bind (h.2 t) (h.1 t) fun a _ t' _ _ => (hnext a).2 t'

theorem ends_draw_bind (f : ρ → α × ρ) (hnext : ∀ r, Ends past (next (f r).1) (next' (f r).1)) :
    Ends past (draw f >>= next) (draw f >>= next') := by
  constructor
  · intro t
    rw [draw, ofCourse, ExceptT.run_bind_lift]
    apply (Course.spans_draw f).bind
    rintro _ _ t' - ⟨rfl, rfl, r, rfl⟩
    exact (hnext r).1 t'
  · intro t
    rw [draw, ofCourse, ExceptT.run_bind_lift, ExceptT.run_bind_lift]
    apply (Course.ends_draw f).bind (Course.spans_draw f)
    rintro _ _ t' - ⟨-, -, r, rfl⟩
    exact (hnext r).2 t'

theorem Ends.of_isSome (h : action.Lasts past 1)
    (hsome : ∀ s, ∃ result, action.run s = some result) :
    Ends past action action :=
  ⟨h, fun _ => Course.ends_of_isSome hsome⟩

theorem Ends.run (h : Ends past action action') :
    Ends past (ofCourse action.run) (ofCourse action'.run) := by
  constructor
  · intro t
    rw [run_ofCourse]
    apply (h.1 t).bind
    intro answer events t' _ hlasts
    apply Course.spans_pure
    rwa [List.append_nil]
  · intro t
    rw [run_ofCourse, run_ofCourse]
    exact (h.2 t).bind (h.1 t) fun _ _ _ _ _ => Course.ends_pure _

variable [Surroundings σ] {sleeps : Int → Prop}

theorem isLaw_ends (h : Surroundings.MovesOn sleeps past) :
    IsLaw fun {α} (action action' : Action σ ρ α) => Ends past action action' where
  answer := fun answer => .of_isSome (lasts_lift answer) fun _ => ⟨_, rfl⟩
  draw := fun f => .of_isSome (lasts_drawOutcome f) fun _ => ⟨_, rfl⟩
  ask := by
    intro request
    refine .of_isSome (lasts_ask h.toPaces request) fun s => ?_
    obtain ⟨result, hcall⟩ := h.exists_call request s.world
    exact ⟨_, Option.map_eq_some_iff.mpr ⟨result, hcall, rfl⟩⟩
  bind := .bind

theorem ends_now (h : Surroundings.Paces sleeps past 1) : Ends past (now : Action σ ρ Int) now :=
  .of_isSome (lasts_now h) fun _ => ⟨_, rfl⟩

theorem ends_elapsed (h : Surroundings.Paces sleeps past 1) (start : Int) :
    Ends past (elapsed start : Action σ ρ Int) (elapsed start) :=
  .of_isSome (lasts_elapsed h start) fun _ => ⟨_, rfl⟩

theorem ends_sleep (h : Surroundings.Paces sleeps past 1) {ms : Int} (hms : sleeps ms) :
    Ends past (sleep ms : Action σ ρ Unit) (sleep ms) := by
  refine .of_isSome (lasts_sleep h hms) fun s => ?_
  rw [sleep]
  cases Clock.seconds ms with
  | error fault => exact ⟨_, rfl⟩
  | ok seconds => exact ⟨_, rfl⟩

end Action

namespace Opening

variable {ρ α : Type}

/-- Whatever is drawn, there is a call. -/
def Calls (opening : Opening ρ) : Prop :=
  ∀ r, (opening r).1.isSome

theorem calls_ask (request : Request) : (ask request : Opening ρ).Calls :=
  fun _ => rfl

theorem calls_draw {f : ρ → α × ρ} {next : α → Opening ρ} (h : ∀ r, (next (f r).1).Calls) :
    (draw f next).Calls :=
  fun r => h r _

theorem calls_drawOutcome {f : ρ → Outcome α × ρ} {good : α → Prop} {next : α → Opening ρ}
    (h : ∀ r, ∃ a, (f r).1 = .ok a ∧ good a) (hnext : ∀ a, (next a).Calls) :
    (drawOutcome f next).Calls := by
  apply calls_draw
  intro r
  obtain ⟨a, ha, -⟩ := h r
  rw [ha]
  exact hnext a

theorem Calls.adds {σ : Type} {opening : Opening ρ} (h : opening.Calls) {course : Course σ ρ α}
    (hopens : course.Opens opening) : course.Adds fun _ events => 1 ≤ Event.calls events := by
  intro s a s' hs
  obtain ⟨events, hjournal, hfirst, -⟩ := hopens s a s' hs
  refine ⟨events, hjournal, ?_⟩
  have hsome := h s.random
  rw [← hfirst, List.isSome_head?] at hsome
  have hpos : 0 < (events.filterMap Event.call?).length :=
    List.length_pos_iff.mpr (by simpa using hsome)
  change 1 ≤ ((events.filterMap Event.call?).length : Int)
  omega

end Opening

namespace Operation

open Surroundings StorageLoad.Action Opening

variable {σ ρ 𝕜 : Type} [RandomSource ρ] [Surroundings σ] {past : Int → σ → Prop} {t : Int}
  {c : Settings 𝕜} {polls polls' : Nat}

/-- So many answers are enough for a wait to end that has come to a time since its start. -/
def Suffices (c : Settings 𝕜) (polls : Nat) (waited : Int) : Prop :=
  1 ≤ polls ∧ c.timeoutMs ≤ polls + waited

omit [RandomSource ρ] in
theorem ends_awaitReplicas (h : MovesOn c.Sleeps past)
    (path : Path) (replicas start : Int) (hstart : start ≤ t)
    (hpolls : Suffices c polls (t - start)) (hpolls' : Suffices c polls' (t - start)) :
    Course.Ends past t (awaitReplicas c path replicas start polls : Action σ ρ Unit).run
      (awaitReplicas c path replicas start polls').run := by
  induction polls generalizing polls' t with
  | zero => exact absurd hpolls.1 (by decide)
  | succ polls ih =>
      cases polls' with
      | zero => exact absurd hpolls'.1 (by decide)
      | succ polls' =>
          rw [awaitReplicas, awaitReplicas]
          refine Ends.run_bind ((isLaw_ends h).ask _ |>.2 t) (spans_ask h.toPaces _ t) ?_
          rintro factor _ t₁ - ⟨-, rfl⟩
          split
          · exact ((ends_elapsed h.toPaces start).bind fun _ =>
              .of_isSome (lasts_note rfl) fun _ => ⟨_, rfl⟩).2 _
          · apply Ends.run_bind ((ends_elapsed h.toPaces start).2 _)
              (passes_elapsed h.toPaces start _)
            rintro ms events t₂ hle hms
            obtain rfl := hms ms rfl
            split
            · exact Course.ends_pure _
            · rename_i hwaiting
              have hwaited : t₂ - start < c.timeoutMs := by
                have hless := Int.not_le.mp hwaiting
                rw [Clock.elapsed] at hless
                omega
              refine Ends.run_bind ((ends_sleep h.toPaces (Or.inl rfl)).2 _)
                (lasts_sleep h.toPaces (Or.inl rfl) _) ?_
              intro _ _ t₃ hle' _
              obtain ⟨-, hlong⟩ := hpolls
              obtain ⟨-, hlong'⟩ := hpolls'
              exact ih (by omega) ⟨by omega, by omega⟩ ⟨by omega, by omega⟩

theorem ends_perform (h : MovesOn c.Sleeps past)
    (hpolls : Suffices c polls 0) (hpolls' : Suffices c polls' 0) (space : Namespace)
    {kind : Kind} (hkind : kind ≠ .sleep) :
    Ends past (perform polls c space kind : Action σ ρ (List Record))
      (perform polls' c space kind) := by
  apply isLaw_perform (isLaw_ends h) polls polls' _ space hkind
  intro path replicas
  constructor
  · exact (lasts_now h.toPaces).bind fun start =>
      lasts_awaitReplicas h.toPaces path replicas start polls
  · intro t
    apply Ends.run_bind ((ends_now h.toPaces).2 t) (passes_now h.toPaces t)
    rintro start _ t' - hstart
    obtain rfl := hstart start rfl
    rw [← Int.sub_self start] at hpolls hpolls'
    exact ends_awaitReplicas h path replicas start (Int.le_refl _) hpolls hpolls'

theorem ends_pause (h : MovesOn c.Sleeps past) :
    Ends past (pause c : Action σ ρ (List Record)) (pause c) := by
  rw [pause]
  cases hpause : c.pause with
  | none => exact .of_isSome (lasts_lift _) fun _ => ⟨_, rfl⟩
  | some range =>
      refine ends_draw_bind _ fun r => ?_
      have hms : c.Sleeps (range.draw r).1 := Or.inr ⟨range, hpause, range.draw_mem r⟩
      refine (ends_now h.toPaces).bind fun start => (ends_sleep h.toPaces hms).bind fun _ => ?_
      exact (ends_elapsed h.toPaces start).bind fun ms =>
        .of_isSome (lasts_lift _) fun _ => ⟨_, rfl⟩

theorem ends_run (h : MovesOn c.Sleeps past)
    (hpolls : Suffices c polls 0) (hpolls' : Suffices c polls' 0) (kind : Kind) :
    Ends past (run polls c kind : Action σ ρ (List Record)) (run polls' c kind) := by
  have hlaw := isLaw_ends (ρ := ρ) h
  rw [run, run]
  split
  · exact ends_pause h
  · rename_i hkind
    refine (hlaw.answer _).bind fun space => (ends_now h.toPaces).bind fun start =>
      (ends_perform h hpolls hpolls' space hkind).run.bind fun answer => ?_
    cases answer with
    | ok outputs => exact (ends_elapsed h.toPaces start).bind fun ms => hlaw.of_run_eq_pure rfl
    | error fault =>
        dsimp only
        split
        · exact (ends_elapsed h.toPaces start).bind fun ms => hlaw.of_run_eq_pure rfl
        · exact hlaw.of_run_eq_pure rfl

/-- What it takes for every operation to make a call: sizes of segments that a reader accepts, and
no more files than there are numbers that can be written. -/
structure CanCall (c : Settings 𝕜) (space : Namespace) : Prop where
  space_eq : c.space = .ok space
  writeSize : c.writeSize.upper ≤ Segment.maxPayload + Segment.headerLength
  appendSize : c.appendSize.upper ≤ Segment.maxPayload + Segment.headerLength
  files : space.files ≤ 10 ^ digitLimit

theorem calls_opening {space : Namespace} (h : CanCall c space) {kind : Kind}
    (hkind : kind ≠ .sleep) :
    (opening c space kind : Opening ρ).Calls := by
  have hfile : ∀ r : ρ, _ := space.exists_chooseFile h.files
  have hdirectory : ∀ r : ρ, _ := space.exists_chooseDirectory h.files
  cases kind with
  | create =>
      refine calls_drawOutcome hfile fun path => calls_draw fun r => calls_draw fun _ =>
        calls_draw fun _ => ?_
      have hsize := Int.le_trans (c.writeSize.draw_mem r).2 h.writeSize
      exact calls_drawOutcome (Segment.exists_draw hsize) fun _ => calls_ask _
  | append =>
      refine calls_drawOutcome hfile fun path => calls_draw fun r => ?_
      have hsize := Int.le_trans (c.appendSize.draw_mem r).2 h.appendSize
      exact calls_drawOutcome (Segment.exists_draw hsize) fun _ => calls_ask _
  | delete => exact calls_drawOutcome hfile fun path => calls_ask _
  | rename =>
      exact calls_drawOutcome hfile fun source =>
        calls_drawOutcome hfile fun target => calls_ask _
  | setReplication => exact calls_drawOutcome hfile fun path => calls_draw fun _ => calls_ask _
  | read => exact calls_drawOutcome hfile fun path => calls_draw fun _ => calls_ask _
  | ls => exact calls_drawOutcome hdirectory fun path => calls_ask _
  | mkdir => exact calls_drawOutcome hdirectory fun path => calls_ask _
  | sleep => exact absurd rfl hkind

theorem spans_run (h : MovesOn c.Sleeps past)
    (hpolls : Suffices c polls 0) {space : Namespace} (hspace : CanCall c space) {kind : Kind}
    (hkind : kind ≠ .sleep) (t : Int) :
    Course.Spans past t (run polls c kind : Action σ ρ (List Record)).run fun _ _ t' =>
      t + 1 ≤ t' := by
  have hlasts := (ends_run (ρ := ρ) h hpolls hpolls kind).1 t
  have hopening : openingOf (ρ := ρ) c kind = opening c space kind := by
    rw [openingOf, if_neg hkind, hspace.space_eq]
    rfl
  have hopens : (run polls c kind : Action σ ρ (List Record)).Opens (opening c space kind) :=
    hopening ▸ opens_run polls c kind fun hsleep => absurd hsleep hkind
  apply (hlasts.and_adds ((calls_opening hspace hkind).adds hopens)).mono
  rintro _ events t' - ⟨hle, hcalls⟩
  omega

end Operation

namespace Worker

open Course Operation Surroundings StorageLoad.Action

variable {σ ρ τ 𝕜 : Type} {past : Int → σ → Prop} {t start : Int} {c : Settings 𝕜}
  {polls polls' : Nat}

theorem ends_emitAll (outputs : List Record) :
    Ends past t (outputs.forM emit : Action σ ρ Unit).run
      (outputs.forM emit : Action σ ρ Unit).run := by
  induction outputs with
  | nil => exact ends_pure _
  | cons output outputs ih =>
      rw [run_emitAll_cons]
      cases output.text with
      | error fault => exact ends_pure _
      | ok text =>
          apply (ends_note _).bind (spans_note _)
          rintro _ _ t' - ⟨-, rfl⟩
          exact ih

/-- A policy that fails to answer only when the time is up, and selects no pauses. -/
structure Policy.IsPrompt (policy : Policy τ ρ) (c : Settings 𝕜) : Prop where
  chooses : policy.Chooses (· ≠ .sleep)
  late : ∀ elapsed memory random fault, 0 ≤ elapsed →
    (policy.choose elapsed c.durationMs memory random).1 = .error fault → c.durationMs ≤ elapsed

section Rounds

variable [RandomSource ρ] [Surroundings σ] (h : MovesOn c.Sleeps past)
  (hpolls : Suffices c polls 0) (hpolls' : Suffices c polls' 0)

include h hpolls hpolls'

theorem comes_attempt {kind : Kind} {ms : Int}
    (hrun : ∀ t, Spans past t (run polls c kind : Action σ ρ (List Record)).run fun _ _ t' =>
      t + ms ≤ t')
    (turn : Outcome (List Record) → Turn) (number : Nat) :
    Comes past t (attempt polls c turn number kind : Action σ ρ Unit).run
      (attempt polls' c turn number kind : Action σ ρ Unit).run fun _ _ t' => t + ms ≤ t' := by
  rw [run_attempt, run_attempt]
  apply (comes_note _).bind
  rintro _ _ t - ⟨rfl, rfl⟩
  apply Comes.bind ⟨spans_now h.toPaces t, ends_now⟩
  rintro start _ t₁ hle ⟨-, rfl⟩
  apply Comes.bind ⟨hrun start, (ends_run h hpolls hpolls' kind).2 start⟩
  rintro answer own t₂ - hlong
  apply (comes_note _).bind
  rintro _ _ t₂ - ⟨-, rfl⟩
  cases answer with
  | error fault => exact comes_pure (by omega)
  | ok outputs =>
      apply Comes.bind ⟨spans_elapsed h.toPaces start t₂, ends_elapsed start⟩
      rintro ms _ t₃ hle₃ -
      apply (comes_note _).bind
      rintro _ _ t₃ - ⟨-, rfl⟩
      apply Comes.mono ⟨spans_emitAll outputs, ends_emitAll outputs⟩
      rintro _ _ t₄ hle₄ -
      omega

/-- How far a worker has come by some time: it has selected an operation a millisecond at most,
and no more than the run has milliseconds. -/
structure Progress.IsWithin (c : Settings 𝕜) (start : Int) (p : Progress τ) (t : Int) : Prop where
  le_time : start + p.operations ≤ t
  le_duration : p.operations ≤ c.durationMs

omit h hpolls hpolls' [RandomSource ρ] [Surroundings σ] in
theorem comes_recover (p : Progress τ) (kind : Option Kind) (fault : Fault) :
    Comes past t (recover c p kind fault : Course σ ρ (Next × Progress τ))
      (recover c p kind fault) fun result _ t' => result.2 = p ∧ t' = t := by
  apply (comes_note _).bind
  rintro _ _ t - ⟨-, rfl⟩
  exact comes_pure ⟨rfl, rfl⟩

omit h hpolls hpolls' [RandomSource ρ] [Surroundings σ] in
theorem comes_select (policy : Policy τ ρ) (memory : τ) (elapsed : Int) :
    Comes past t (select policy c memory elapsed : Course σ ρ (Outcome (Option Kind) × τ))
      (select policy c memory elapsed) fun result _ t' => t' = t ∧
        ∃ random, result.1 = (policy.choose elapsed c.durationMs memory random).1 := by
  apply Comes.bind ⟨spans_draw _, ends_draw _⟩
  rintro ⟨answer, memory⟩ _ t' - ⟨-, rfl, random, hanswer⟩
  apply (comes_note _).bind
  rintro _ _ t' - ⟨-, rfl⟩
  exact comes_pure ⟨rfl, random, congrArg Prod.fst hanswer⟩

theorem comes_round {policy : Policy τ ρ} (hpolicy : policy.IsPrompt c) {space : Namespace}
    (hspace : CanCall c space) {p : Progress τ} (hp : p.IsWithin c start t)
    (htime : t < start + c.durationMs) :
    Comes past t (round policy polls c start p : Course σ ρ (Next × Progress τ))
      (round policy polls' c start p)
      fun result _ t' => result.2.IsWithin c start t' ∧ (result.1 = .again → t + 1 ≤ t') := by
  obtain ⟨hbefore, hfew⟩ := hp
  rw [round, round]
  apply (comes_note _).bind
  rintro _ _ t - ⟨-, rfl⟩
  apply Comes.bind ⟨spans_elapsed h.toPaces start t, ends_elapsed start⟩
  rintro ms _ t₁ hle ⟨-, rfl⟩
  apply (comes_select policy p.memory _).bind
  rintro ⟨answer, memory⟩ _ t₁ - ⟨rfl, random, hanswer⟩
  cases answer with
  | error fault =>
      have hlate := hpolicy.late _ _ _ fault (Clock.elapsed_nonneg start t₁) hanswer.symm
      rw [Clock.elapsed] at hlate
      apply (comes_recover _ none fault).mono
      rintro ⟨next, q⟩ _ t₂ - ⟨rfl, rfl⟩
      exact ⟨⟨by dsimp only; omega, hfew⟩, by omega⟩
  | ok choice =>
      cases choice with
      | none => exact comes_pure ⟨⟨by dsimp only; omega, hfew⟩, by simp⟩
      | some kind =>
          have hkind : kind ≠ .sleep := hpolicy.chooses _ _ _ random kind hanswer.symm
          have hrun : ∀ t, Spans past t (run polls c kind : Action σ ρ (List Record)).run
              fun _ _ t' => t + 1 ≤ t' :=
            spans_run h hpolls hspace hkind
          apply (comes_attempt h hpolls hpolls' hrun (.ran kind) (p.operations + 1)).bind
          rintro result _ t₂ - hlong
          have hwithin : ∀ t' ≥ t₂, ∀ pauses,
              (⟨p.operations + 1, pauses, memory⟩ : Progress τ).IsWithin c start t' :=
            fun t' ht' _ => ⟨by dsimp only; omega, by dsimp only; omega⟩
          cases result with
          | error fault =>
              apply (comes_recover _ (some kind) fault).mono
              rintro ⟨next, q⟩ _ t₃ - ⟨rfl, rfl⟩
              exact ⟨hwithin _ (Int.le_refl _) _, by omega⟩
          | ok =>
              dsimp only
              split
              · exact comes_pure ⟨hwithin _ (Int.le_refl _) _, by omega⟩
              · have hrest : ∀ t, Spans past t (run polls c .sleep : Action σ ρ (List Record)).run
                    fun _ _ t' => t + 0 ≤ t' := by
                  intro t
                  apply ((ends_run h hpolls hpolls .sleep).1 t).mono
                  rintro _ _ t' hle -
                  omega
                apply (comes_attempt h hpolls hpolls' hrest .paused (p.pauses + 1)).bind
                rintro result _ t₃ hle₃ -
                cases result with
                | error fault =>
                    apply (comes_recover _ (some .sleep) fault).mono
                    rintro ⟨next, q⟩ _ t₄ - ⟨rfl, rfl⟩
                    exact ⟨hwithin _ hle₃ _, by omega⟩
                | ok => exact comes_pure ⟨hwithin _ hle₃ _, by omega⟩

theorem comes_loop {policy : Policy τ ρ} (hpolicy : policy.IsPrompt c) {space : Namespace}
    (hspace : CanCall c space) {rounds rounds' : Nat} {p : Progress τ} (hp : p.IsWithin c start t)
    (hrounds : 1 ≤ rounds ∧ c.durationMs < rounds + (t - start))
    (hrounds' : 1 ≤ rounds' ∧ c.durationMs < rounds' + (t - start)) :
    Comes past t (loop policy polls c start rounds p : Course σ ρ (Ending × Progress τ))
      (loop policy polls' c start rounds' p) fun result _ _ =>
        result.2.operations ≤ c.durationMs := by
  induction rounds generalizing rounds' p t with
  | zero => exact absurd hrounds.1 (by decide)
  | succ rounds ih =>
      cases rounds' with
      | zero => exact absurd hrounds'.1 (by decide)
      | succ rounds' =>
          rw [loop, loop]
          apply Comes.bind ⟨spans_elapsed h.toPaces start t, ends_elapsed start⟩
          rintro ms _ t₁ hle ⟨-, rfl⟩
          apply (comes_note _).bind
          rintro _ _ t₁ - ⟨-, rfl⟩
          have hp₁ : p.IsWithin c start t₁ := ⟨Int.le_trans hp.le_time hle, hp.le_duration⟩
          split
          · exact comes_pure hp.le_duration
          · rename_i hover
            have htime : t₁ < start + c.durationMs := by
              rw [Clock.elapsed] at hover
              omega
            apply (comes_round h hpolls hpolls' hpolicy hspace hp₁ htime).bind
            rintro ⟨next, q⟩ _ t₂ - ⟨hq, hagain⟩
            cases next with
            | stop ending => exact comes_pure hq.le_duration
            | again =>
                have hlater := hagain rfl
                exact ih hq ⟨by omega, by omega⟩ ⟨by omega, by omega⟩

end Rounds

section Runs

variable [RandomSource ρ] [Surroundings σ] {policy : Policy τ ρ} {space : Namespace}
  {limit limit' : Nat}

/-- A run ends in the same way with any two limits that are enough. -/
theorem comes_runWith (h : MovesOn c.Sleeps past) (hpolicy : policy.IsPrompt c)
    (hspace : CanCall c space) (hduration : 0 ≤ c.durationMs)
    (hlimit : c.durationMs < limit ∧ c.timeoutMs < limit)
    (hlimit' : c.durationMs < limit' ∧ c.timeoutMs < limit') (key value : String) :
    Comes past t (runWith policy limit c key value : Course σ ρ Ending)
      (runWith policy limit' c key value)
      fun _ events _ => ((events.filterMap Event.turn?).countP Turn.isChoice : Int) ≤
        c.durationMs := by
  rw [runWith, runWith]
  apply (comes_note _).bind
  rintro _ _ t - ⟨rfl, rfl⟩
  apply Comes.bind ⟨spans_now h.toPaces t, ends_now⟩
  rintro start _ t₁ - ⟨rfl, rfl⟩
  have hstart : (Progress.start policy).IsWithin c start start :=
    ⟨Int.le_of_eq (Int.add_zero start), hduration⟩
  have henough : ∀ n : Nat, c.durationMs < n ∧ c.timeoutMs < n →
      Suffices c n 0 ∧ 1 ≤ n ∧ c.durationMs < n + (start - start) :=
    fun n hn => ⟨⟨by omega, by omega⟩, by omega, by omega⟩
  obtain ⟨hpolls, hrounds⟩ := henough limit hlimit
  obtain ⟨hpolls', hrounds'⟩ := henough limit' hlimit'
  have hloop := comes_loop h hpolls hpolls' hpolicy hspace hstart hrounds hrounds'
  apply Comes.bind ⟨hloop.1.and_adds (tells_loop policy limit c start limit _), hloop.2⟩
  rintro ⟨ending, p⟩ events t₂ - ⟨hfew, -, -, hoperations⟩
  apply Comes.bind ⟨spans_elapsed h.toPaces start t₂, ends_elapsed start⟩
  rintro ms _ t₃ - ⟨rfl, rfl⟩
  apply (comes_note _).bind
  rintro _ _ t₃ - ⟨rfl, rfl⟩
  apply (comes_note _).bind
  rintro _ _ t₃ - ⟨rfl, rfl⟩
  apply (comes_note _).bind
  rintro _ _ t₃ - ⟨rfl, rfl⟩
  apply comes_pure
  have hchoices : ((events.filterMap Event.turn?).countP Turn.isChoice : Int) ≤ c.durationMs := by
    rw [hoperations, Progress.start, Nat.zero_add] at hfew
    exact hfew
  simpa [List.filterMap_cons, Event.turn?] using hchoices

end Runs

section Weighted

variable [RandomSource ρ]

theorem isPrompt_weighted {c : Settings Float} (h : c.IsValid) {space : Namespace}
    (hspace : c.space = .ok space) : (weighted c : Policy Tally ρ).IsPrompt c where
  chooses := chooses_weighted h.kinds
  late := by
    intro elapsed t r fault helapsed hfault
    by_contra hearly
    have hless : elapsed.natAbs ≤ c.durationMs.natAbs := by omega
    have hbound : ∀ k, elapsed.natAbs ≤ 2 ^ k * c.durationMs.natAbs :=
      fun k => Nat.le_trans hless (Nat.le_mul_of_pos_left _ (Nat.two_pow_pos k))
    obtain ⟨choice, hchoice⟩ := exists_choice h.kinds hspace helapsed (by omega) (hbound 1020) t r
    rw [hchoice] at hfault
    cases hfault

variable [Surroundings σ]

/-- Every run ends by the time it has.  If every call takes a millisecond and nothing moves the
clock back, then whatever is answered, a run with sizes of segments that a reader accepts and with
no more files than there are numbers that can be written ends after no more selected operations
than its time has milliseconds, however many more rounds and answers there could have been. -/
theorem ends_in_time {options : Options} {c : Settings Float} (h : options.settings = .ok c)
    (hwrite : c.writeSize.upper ≤ Segment.maxPayload + Segment.headerLength)
    (happend : c.appendSize.upper ≤ Segment.maxPayload + Segment.headerLength)
    (hfiles : c.fileCount ≤ (10 ^ digitLimit : Nat)) {time : σ → Int} (hclock : IsTicking time)
    (key value : String) (world : σ) (random : ρ) :
    ∃ a, (∀ limit : Nat, c.durationMs < limit → c.timeoutMs < limit →
        account limit c key value world random = some a) ∧
      (a.turns.countP Turn.isChoice : Int) ≤ c.durationMs := by
  obtain ⟨hwell, -⟩ := Options.isWellFormed_of_settings h
  obtain ⟨space, hspace⟩ := hwell.space
  have hcan : CanCall c space := by
    refine ⟨hspace, hwrite, happend, Int.ofNat_le.mp ?_⟩
    rw [(Namespace.of_ofSizes hspace).2.1]
    exact hfiles
  have hsleeps : ∀ ms, c.Sleeps ms → 0 ≤ ms := by
    rintro ms (rfl | ⟨range, hrange, hms⟩)
    · exact Int.le_trans (by decide) hwell.pollMs
    · exact Int.le_trans (hwell.pause range hrange) hms.1
  let start : Scene σ ρ := ⟨world, random, []⟩
  have hpast : time world ≤ time start.world := Int.le_refl _
  let limit := (max c.durationMs c.timeoutMs).toNat + 1
  have hlimit : c.durationMs < limit ∧ c.timeoutMs < limit := ⟨by omega, by omega⟩
  have hcomes : ∀ limit' : Nat, c.durationMs < limit' ∧ c.timeoutMs < limit' →
      Comes (fun t w => t ≤ time w) (time world)
        (runWith (weighted c) limit c key value : Course σ ρ Ending)
        (runWith (weighted c) limit' c key value)
        fun _ events _ => ((events.filterMap Event.turn?).countP Turn.isChoice : Int) ≤
          c.durationMs :=
    fun limit' hlimit' =>
      comes_runWith (hclock.movesOn hsleeps) (isPrompt_weighted hwell.toIsValid hspace) hcan
      hwell.durationMs hlimit hlimit' key value
  obtain ⟨⟨ending, s⟩, hrun, -⟩ := (hcomes limit hlimit).2 start hpast
  obtain ⟨events, -, hjournal, -, -, hchoices⟩ :=
    (hcomes limit hlimit).1 start ending s hpast hrun
  refine ⟨⟨ending, s.world, s.journal.reverse⟩, ?_, ?_⟩
  · intro limit' hduration' htimeout'
    obtain ⟨result, hresult, hrun'⟩ := (hcomes limit' ⟨hduration', htimeout'⟩).2 start hpast
    obtain rfl := Option.some.inj (hresult.symm.trans hrun)
    exact Option.map_eq_some_iff.mpr ⟨_, hrun', rfl⟩
  · rw [Account.turns, hjournal, List.append_nil, List.reverse_reverse]
    exact hchoices

end Weighted

theorem isTicking_obliging : IsTicking Obliging.clock where
  le_reading := fun _ => Int.le_refl _
  reading_le := fun _ => Int.le_refl _
  call := fun _ _ => ⟨_, _, rfl, Int.le_refl _⟩
  sleep := fun _ _ hms => Int.le_add_of_nonneg_right hms

/-- Waits of three milliseconds for two replicas, in a run of five. -/
def pressed : Options :=
  [(.text "duration", .real 0.005), (.text "replication", .list [.int 2, .int 2]),
    (.text "replication_poll", .int 1), (.text "replication_timeout", .int 3),
    (.text "files", .int 3), (.text "write_size", .int 16), (.text "append_size", .int 16),
    (.text "operations", .map [(.text "set_replication", .int 100)])]

/-- The replicas never come, and two waits are all there is time for. -/
theorem ends_in_time_pressed : ∃ c a, pressed.settings = .ok c ∧ c.durationMs = 5 ∧
    (∀ limit : Nat, c.durationMs < limit → c.timeoutMs < limit →
      account limit c "k" "v" (⟨0⟩ : Obliging) (⟨⟩ : Zeros) = some a) ∧
    (a.turns.countP Turn.isChoice : Int) ≤ 5 ∧ a.turns.countP Turn.hasRaised = 2 ∧
    a.ending = .timeout := by
  have hrun : (pressed.settings.toOption.bind fun c =>
      (account 6 c "k" "v" (⟨0⟩ : Obliging) (⟨⟩ : Zeros)).map fun a =>
        ((c.durationMs, c.timeoutMs, c.fileCount), (c.writeSize.upper, c.appendSize.upper),
          a.turns.countP Turn.hasRaised, a.ending)) =
            some ((5, 3, 3), (16, 16), 2, .timeout) := by
    decide +kernel
  obtain ⟨c, hc, hrun⟩ := Option.bind_eq_some_iff.mp hrun
  obtain ⟨a, ha, hfacts⟩ := Option.map_eq_some_iff.mp hrun
  simp only [Prod.mk.injEq] at hfacts
  obtain ⟨⟨hduration, htimeout, hcount⟩, ⟨hwrite, happend⟩, hraised, hending⟩ := hfacts
  replace hc := Outcome.eq_ok_of_toOption hc
  have hfiles : c.fileCount ≤ (10 ^ digitLimit : Nat) := by
    rw [hcount]
    exact Int.ofNat_le.mpr (Nat.le_trans (by decide : 3 ≤ 10) (Nat.le_self_pow (by decide) 10))
  obtain ⟨a', hlimits, hchoices⟩ :=
    ends_in_time hc (by rw [hwrite]; decide) (by rw [happend]; decide) hfiles
      isTicking_obliging "k" "v" (⟨0⟩ : Obliging) (⟨⟩ : Zeros)
  obtain rfl : a = a' := by
    have hsame := hlimits 6 (by omega) (by omega)
    exact Option.some.inj (ha.symm.trans hsame)
  rw [hduration] at hchoices
  exact ⟨c, a, hc, hduration, hlimits, hchoices, hraised, hending⟩

/-- A source of words with all bits set but the highest. -/
structure Ones where

instance : RandomSource Ones where
  next r := (0x7fffffff, r)

/-- The numbers of most files are too long to be written, so that no operation gets to its
call. -/
def crowded : Options :=
  [(.text "duration", .real 0.005), (.text "ops", .int 20), (.text "files", .int (16 ^ 3600)),
    (.text "write_size", .int 16), (.text "append_size", .int 16),
    (.text "operations", .map [(.text "delete", .int 100)])]

/-- Without a call, the time stands still, and the run goes on until all is used up. -/
theorem exceeds_time_crowded : ∃ c a, crowded.settings = .ok c ∧
    c.writeSize.upper ≤ Segment.maxPayload + Segment.headerLength ∧
    c.appendSize.upper ≤ Segment.maxPayload + Segment.headerLength ∧ IsTicking Obliging.clock ∧
    account 30 c "k" "v" (⟨0⟩ : Obliging) (⟨⟩ : Ones) = some a ∧
    c.durationMs = 5 ∧ a.turns.countP Turn.isChoice = 20 := by
  have hrun : (crowded.settings.toOption.bind fun c =>
      (account 30 c "k" "v" (⟨0⟩ : Obliging) (⟨⟩ : Ones)).map fun a =>
        (c.durationMs, c.writeSize.upper, c.appendSize.upper, a.turns.countP Turn.isChoice)) =
      some (5, 16, 16, 20) := by
    decide +kernel
  obtain ⟨c, hc, hrun⟩ := Option.bind_eq_some_iff.mp hrun
  obtain ⟨a, ha, hfacts⟩ := Option.map_eq_some_iff.mp hrun
  simp only [Prod.mk.injEq] at hfacts
  obtain ⟨hduration, hwrite, happend, hchoices⟩ := hfacts
  refine ⟨c, a, Outcome.eq_ok_of_toOption hc, ?_, ?_, isTicking_obliging, ha, hduration, hchoices⟩
  · rw [hwrite]
    decide
  · rw [happend]
    decide

end Worker

end StorageLoad
