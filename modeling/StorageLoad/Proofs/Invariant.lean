import StorageLoad.Proofs.Worker

/-!
Courses of events that keep an invariant of the scene.  An action keeps it with good results and,
if it fails, with faults that may be (`Action.Ensures`).  A run keeps it if every one of its steps
does (`Worker.Sustains.exists_of_run`), as it does with what can be told of events row by row
(`Worker.IsSerial.of_run`).
-/

namespace StorageLoad

namespace Course

variable {σ ρ α β : Type} {inv : Scene σ ρ → Prop}

/-- From scenes of a sort the course leads only to such scenes, and its result is as it should
be. -/
def Ensures (inv : Scene σ ρ → Prop) (course : Course σ ρ α) (post : α → Prop) : Prop :=
  ∀ s a s', inv s → course s = some (a, s') → inv s' ∧ post a

variable {course : Course σ ρ α} {next : α → Course σ ρ β} {post : α → Prop} {post' : β → Prop}

theorem Ensures.mono {post' : α → Prop} (h : course.Ensures inv post)
    (himp : ∀ a, post a → post' a) :
    course.Ensures inv post' :=
  fun s a s' hinv hs => (h s a s' hinv hs).imp_right (himp a)

theorem ensures_pure {a : α} (h : post a) : (pure a : Course σ ρ α).Ensures inv post := by
  intro s b s' hinv hs
  obtain ⟨rfl, rfl⟩ := Prod.mk.inj (Option.some.inj hs)
  exact ⟨hinv, h⟩

theorem ensures_endless : (endless : Course σ ρ α).Ensures inv post := by
  intro s a s' hinv hs
  cases hs

theorem Ensures.bind (h : course.Ensures inv post)
    (hnext : ∀ a, post a → (next a).Ensures inv post') : (course >>= next).Ensures inv post' := by
  intro s b s'' hinv hs
  obtain ⟨a, s', hfirst, hrest⟩ := exists_of_bind hs
  obtain ⟨hinv', hpost⟩ := h s a s' hinv hfirst
  exact hnext a hpost s' b s'' hinv' hrest

theorem ensures_draw
    (hinv : ∀ s random, inv s → inv { s with random := random }) (f : ρ → α × ρ) :
    (draw f : Course σ ρ α).Ensures inv fun a => ∃ r, a = (f r).1 := by
  intro s a s' hs heq
  obtain ⟨rfl, rfl⟩ := Prod.mk.inj (Option.some.inj heq)
  exact ⟨hinv s _ hs, s.random, rfl⟩

theorem ensures_elapsed [Surroundings σ] {IsReading : Int → Prop}
    (h : (now : Course σ ρ Int).Ensures inv IsReading) (start : Int) :
    (elapsed start : Course σ ρ Int).Ensures inv fun ms =>
      ∃ time, IsReading time ∧ ms = Clock.elapsed start time :=
  h.bind fun time htime => ensures_pure ⟨time, htime, rfl⟩

theorem Adds.ensures {P : List Event → Prop} {adds : α → List Event → Prop} (h : course.Adds adds)
    (hkeep : ∀ before a events, P before → adds a events → P (before ++ events)) :
    course.Ensures (fun s => P s.journal.reverse) fun _ => True := by
  intro s a s' hinv hs
  obtain ⟨events, hjournal, hadds⟩ := h s a s' hs
  refine ⟨?_, trivial⟩
  dsimp only
  rw [hjournal, List.reverse_append, List.reverse_reverse]
  exact hkeep _ a events hinv hadds

end Course

/-- The result is good, or the fault is one that may be. -/
def Outcome.IsEither {α : Type} (good : α → Prop) (bad : Fault → Prop) : Outcome α → Prop
  | .ok a => good a
  | .error fault => bad fault

namespace Action

open Course

variable {σ ρ α β : Type} {inv : Scene σ ρ → Prop} {bad : Fault → Prop}

/-- From scenes of a sort the action leads only to such scenes, with a good result or a fault that
may be. -/
def Ensures (inv : Scene σ ρ → Prop) (action : Action σ ρ α) (good : α → Prop)
    (bad : Fault → Prop) : Prop :=
  Course.Ensures inv action.run (Outcome.IsEither good bad)

variable {action : Action σ ρ α} {next : α → Action σ ρ β} {good : α → Prop} {good' : β → Prop}

theorem ensures_of_run_eq_pure {answer : Outcome α} (h : action.run = pure answer)
    (hanswer : answer.IsEither good bad) : action.Ensures inv good bad := by
  rw [Ensures, h]
  exact Course.ensures_pure hanswer

theorem ensures_pure {a : α} (h : good a) : (pure a : Action σ ρ α).Ensures inv good bad :=
  ensures_of_run_eq_pure rfl h

theorem ensures_throw {fault : Fault} (h : bad fault) :
    (throw fault : Action σ ρ α).Ensures inv good bad :=
  ensures_of_run_eq_pure rfl h

theorem ensures_lift {answer : Outcome α} {a : α} (h : answer = .ok a) (ha : good a) :
    (liftM answer : Action σ ρ α).Ensures inv good bad := by
  rw [h]
  exact ensures_pure ha

theorem ensures_liftNumber {answer : Except NumberFault α} {a : α} (h : answer = .ok a)
    (ha : good a) : (liftM answer : Action σ ρ α).Ensures inv good bad := by
  rw [h]
  exact ensures_pure ha

theorem ensures_liftShape {answer : Except ShapeFault α} {a : α} (h : answer = .ok a)
    (ha : good a) : (liftM answer : Action σ ρ α).Ensures inv good bad := by
  rw [h]
  exact ensures_pure ha

theorem Ensures.bind (h : action.Ensures inv good bad)
    (hnext : ∀ a, good a → (next a).Ensures inv good' bad) :
    (action >>= next).Ensures inv good' bad := by
  rw [Ensures, ExceptT.run_bind]
  apply Course.Ensures.bind h
  intro answer hanswer
  cases answer with
  | error fault => exact Course.ensures_pure hanswer
  | ok a => exact hnext a hanswer

theorem ensures_ofCourse {course : Course σ ρ α} (h : course.Ensures inv good) :
    (ofCourse course).Ensures inv good bad := by
  have hlift : (ofCourse course).run = course >>= fun a => pure (.ok a) := rfl
  rw [Ensures, hlift]
  exact h.bind fun a ha => Course.ensures_pure ha

theorem Ensures.run (h : action.Ensures inv good bad) {bad' : Fault → Prop} :
    (ofCourse action.run).Ensures inv (Outcome.IsEither good bad) bad' :=
  ensures_ofCourse h

end Action

/-- An event of the worker itself, other than a turn and the end of an operation. -/
def Event.IsQuiet : Event → Prop
  | began .. => True
  | selecting _ => True
  | running .. => True
  | emitted _ => True
  | failed .. => True
  | ended .. => True
  | _ => False

theorem Event.IsQuiet.not_isOfOperation {e : Event} (h : e.IsQuiet) : ¬ e.IsOfOperation := by
  intro hown
  cases e <;> first | exact h | exact hown

namespace Worker

open Course

variable {σ ρ τ 𝕜 : Type} [RandomSource ρ] [Surroundings σ] {inv : Scene σ ρ → Prop}
  {IsReading : Int → Prop} {policy : Policy τ ρ} {polls : Nat} {c : Settings 𝕜}

/-- What it takes for a run to keep an invariant: every one of its steps does. -/
structure Sustains (inv : Scene σ ρ → Prop) (IsReading : Int → Prop) (policy : Policy τ ρ)
    (polls : Nat) (c : Settings 𝕜) : Prop where
  draw : ∀ s random, inv s → inv { s with random := random }
  note : ∀ e : Event, e.IsQuiet → (Course.note e : Course σ ρ Unit).Ensures inv fun _ => True
  now : (Course.now : Course σ ρ Int).Ensures inv IsReading
  looked : ∀ elapsed,
    (Course.note (.turned (.looked elapsed)) : Course σ ρ Unit).Ensures inv fun _ => True
  selected : 0 < c.durationMs → ∀ start time memory random, IsReading start → IsReading time →
    (Course.note (.turned (.selected (policy.choose (Clock.elapsed start time) c.durationMs memory
      random).1)) : Course σ ρ Unit).Ensures inv fun _ => True
  ran : ∀ elapsed memory random kind,
    (policy.choose elapsed c.durationMs memory random).1 = .ok (some kind) → ∀ number,
      Course.Ensures inv (attempt polls c (.ran kind) number kind : Action σ ρ Unit).run fun _ =>
        True
  paused : c.pause.isSome → ∀ number,
    Course.Ensures inv (attempt polls c .paused number .sleep : Action σ ρ Unit).run fun _ => True

namespace Sustains

theorem ensures_recover (h : Sustains inv IsReading policy polls c) (p : Progress τ)
    (kind : Option Kind) (fault : Fault) :
    (recover c p kind fault : Course σ ρ (Next × Progress τ)).Ensures inv fun _ => True :=
  (h.note _ (by trivial)).bind fun _ _ => ensures_pure trivial

theorem ensures_select (h : Sustains inv IsReading policy polls c) (hduration : 0 < c.durationMs)
    {start time : Int} (hstart : IsReading start) (htime : IsReading time) (memory : τ) :
    (select policy c memory (Clock.elapsed start time) :
      Course σ ρ (Outcome (Option Kind) × τ)).Ensures inv fun result => ∃ random,
        result.1 = (policy.choose (Clock.elapsed start time) c.durationMs memory random).1 := by
  refine (Course.ensures_draw h.draw _).bind ?_
  rintro ⟨answer, memory'⟩ ⟨random, heq⟩
  obtain rfl : answer =
      (policy.choose (Clock.elapsed start time) c.durationMs memory random).1 :=
    congrArg Prod.fst heq
  refine (h.selected hduration start time memory random hstart htime).bind fun _ _ => ?_
  exact ensures_pure ⟨random, rfl⟩

theorem ensures_round (h : Sustains inv IsReading policy polls c) (hduration : 0 < c.durationMs)
    {start : Int} (hstart : IsReading start) (p : Progress τ) :
    (round policy polls c start p : Course σ ρ (Next × Progress τ)).Ensures inv fun _ =>
    True := by
  refine (h.note _ (by trivial)).bind fun _ _ => ?_
  refine (Course.ensures_elapsed h.now start).bind ?_
  rintro _ ⟨time, htime, rfl⟩
  refine (h.ensures_select hduration hstart htime p.memory).bind ?_
  rintro ⟨answer, memory⟩ ⟨random, hanswer⟩
  cases answer with
  | error fault => exact h.ensures_recover _ none fault
  | ok choice =>
      cases choice with
      | none => exact ensures_pure trivial
      | some kind =>
          refine (h.ran _ p.memory random kind hanswer.symm _).bind fun result _ => ?_
          cases result with
          | error fault => exact h.ensures_recover _ (some kind) fault
          | ok =>
              dsimp only
              split
              · exact ensures_pure trivial
              · rename_i hpause
                have hset : c.pause.isSome := by
                  rwa [← Option.isNone_eq_false_iff, ← Bool.not_eq_true]
                refine (h.paused hset _).bind fun result _ => ?_
                cases result with
                | error fault => exact h.ensures_recover _ (some .sleep) fault
                | ok => exact ensures_pure trivial

theorem ensures_loop (h : Sustains inv IsReading policy polls c) {start : Int}
    (hstart : IsReading start) (rounds : Nat) (p : Progress τ) :
    (loop policy polls c start rounds p : Course σ ρ (Ending × Progress τ)).Ensures inv
      fun _ => True := by
  induction rounds generalizing p with
  | zero => exact ensures_endless
  | succ rounds ih =>
      rw [loop]
      refine (Course.ensures_elapsed h.now start).bind ?_
      rintro _ ⟨time, -, rfl⟩
      refine (h.looked _).bind fun _ _ => ?_
      split
      · exact ensures_pure trivial
      · rename_i hover
        -- No time has passed that is below zero, so a run with time left has a positive duration.
        have hduration : 0 < c.durationMs :=
          Int.lt_of_le_of_lt (Clock.elapsed_nonneg start time) (Int.not_le.mp hover)
        refine (h.ensures_round hduration hstart p).bind ?_
        rintro ⟨next, q⟩ -
        cases next with
        | stop ending => exact ensures_pure trivial
        | again => exact ih q

theorem ensures_runWith {limit : Nat} (h : Sustains inv IsReading policy limit c)
    (key value : String) :
    (runWith policy limit c key value : Course σ ρ Ending).Ensures inv fun _ => True := by
  refine (h.note _ (by trivial)).bind fun _ _ => ?_
  refine h.now.bind fun start hstart => ?_
  refine (h.ensures_loop hstart limit (Progress.start policy)).bind fun ⟨ending, p⟩ _ => ?_
  refine (Course.ensures_elapsed h.now start).bind fun time _ => ?_
  refine (h.note _ (by trivial)).bind fun _ _ => (h.note _ (by trivial)).bind fun _ _ => ?_
  exact (h.note _ (by trivial)).bind fun _ _ => ensures_pure trivial

/-- The invariant holds where the run ends, with the surroundings and the events that it
leaves. -/
theorem exists_of_run {limit : Nat} (h : Sustains inv IsReading policy limit c)
    {key value : String} {world : σ} {random : ρ} {a : Account σ}
    (hrun : accountWith policy limit c key value world random = some a)
    (hstart : inv { world, random, journal := [] }) :
    ∃ s, inv s ∧ s.world = a.world ∧ s.journal.reverse = a.events := by
  obtain ⟨⟨ending, s⟩, hcourse, rfl⟩ := Option.map_eq_some_iff.mp hrun
  exact ⟨s, (h.ensures_runWith key value _ _ _ hstart hcourse).1, rfl, rfl⟩

end Sustains

section Serial

/-- A condition on rows of events that holds of two rows, one after the other, if it does of both,
and of whatever the worker itself brings about. -/
structure IsSerial (P : List Event → Prop) : Prop where
  nil : P []
  append : ∀ {before after : List Event}, P before → P after → P (before ++ after)
  own : ∀ e : Event, ¬ e.IsOfOperation → P [e]

namespace IsSerial

variable {α β : Type} {P : List Event → Prop}

omit [RandomSource ρ] [Surroundings σ] in
theorem adds_pure (h : IsSerial P) (a : α) :
    (pure a : Course σ ρ α).Adds fun _ events => P events := by
  apply (Course.adds_pure a).mono
  rintro _ _ ⟨-, rfl⟩
  exact h.nil

omit [RandomSource ρ] [Surroundings σ] in
theorem adds_after (h : IsSerial P) {before : List Event} (hbefore : P before)
    {course : Course σ ρ α} (hcourse : course.Adds fun _ events => P events) :
    course.Adds fun _ events =>
    P (before ++ events) :=
  hcourse.mono fun _ _ hevents => h.append hbefore hevents

omit [RandomSource ρ] [Surroundings σ] in
theorem adds_bind (h : IsSerial P) {course : Course σ ρ α} {next : α → Course σ ρ β}
    (hcourse : course.Adds fun _ events => P events)
    (hnext : ∀ a, (next a).Adds fun _ events => P events) :
    (course >>= next).Adds fun _ events => P events :=
  hcourse.bind fun a _ hfirst => h.adds_after hfirst (hnext a)

omit [RandomSource ρ] [Surroundings σ] in
theorem adds_note (h : IsSerial P) {e : Event} (he : ¬ e.IsOfOperation) :
    (Course.note e : Course σ ρ Unit).Adds fun _ events => P events := by
  apply (Course.adds_note e).mono
  rintro _ _ rfl
  exact h.own e he

omit [RandomSource ρ] in
theorem adds_elapsed (h : IsSerial P) (start : Int) :
    (Course.elapsed start : Course σ ρ Int).Adds fun _ events => P events := by
  apply (Course.adds_elapsed start).mono
  rintro _ _ rfl
  exact h.nil

omit [RandomSource ρ] [Surroundings σ] in
theorem adds_emitAll (h : IsSerial P) (outputs : List Record) :
    Course.Adds (outputs.forM emit : Action σ ρ Unit).run fun _ events => P events := by
  induction outputs with
  | nil => exact h.adds_pure _
  | cons output outputs ih =>
      rw [run_emitAll_cons]
      cases output.text with
      | error fault => exact h.adds_pure _
      | ok text => exact h.adds_bind (h.adds_note id) fun _ => ih

theorem adds_attempt (h : IsSerial P) {number : Nat} {kind : Kind}
    (hrun : Course.Adds (Operation.run polls c kind : Action σ ρ (List Record)).run
      fun _ events =>
      P (.running number kind :: events)) (turn : Outcome (List Record) → Turn) :
    Course.Adds (attempt polls c turn number kind : Action σ ρ Unit).run fun _ events =>
      P events := by
  rw [run_attempt]
  apply (Course.adds_note _).bind
  rintro _ _ rfl
  apply Course.adds_now.bind
  rintro start _ rfl
  apply hrun.bind
  intro answer events hevents
  refine Course.Adds.mono (h.adds_after hevents ?_) fun _ _ hall => hall
  refine h.adds_bind (h.adds_note id) fun _ => ?_
  cases answer with
  | error fault => exact h.adds_pure _
  | ok outputs =>
      refine h.adds_bind (h.adds_elapsed start) fun time => ?_
      exact h.adds_bind (h.adds_note id) fun _ => h.adds_emitAll outputs

omit [RandomSource ρ] [Surroundings σ] in
theorem ensures (h : IsSerial P) {course : Course σ ρ α}
    (hcourse : course.Adds fun _ events => P events) :
    course.Ensures (fun s => P s.journal.reverse) fun _ => True :=
  hcourse.ensures fun _ _ _ hbefore hevents => h.append hbefore hevents

/-- Of all events of a run, the condition holds if it does of each operation's, with its
beginning. -/
theorem of_run (h : IsSerial P) {limit : Nat}
    (hrun : ∀ kind number, Course.Adds (Operation.run limit c kind : Action σ ρ (List Record)).run
      fun _ events => P (.running number kind :: events))
    {key value : String} {world : σ} {random : ρ} {a : Account σ}
    (ha : accountWith policy limit c key value world random = some a) : P a.events := by
  have hsustains : Sustains (fun s : Scene σ ρ => P s.journal.reverse) (fun _ => True)
      policy limit c :=
    { draw := fun _ _ hs => hs
      note := fun _ he => h.ensures (h.adds_note he.not_isOfOperation)
      now := h.ensures (Course.adds_now.mono fun _ _ hnone => hnone ▸ h.nil)
      looked := fun _ => h.ensures (h.adds_note id)
      selected := fun _ _ _ _ _ _ _ => h.ensures (h.adds_note id)
      ran := fun _ _ _ kind _ number => h.ensures (h.adds_attempt (hrun kind number) (.ran kind))
      paused := fun _ number => h.ensures (h.adds_attempt (hrun .sleep number) .paused) }
  obtain ⟨s, hs, -, hevents⟩ := hsustains.exists_of_run ha h.nil
  rwa [hevents] at hs

end IsSerial

end Serial

end Worker

end StorageLoad
