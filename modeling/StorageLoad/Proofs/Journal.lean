import StorageLoad.Surroundings

/-!
What courses of events write into the journal.  A course adds events to it and takes none away;
`Adds` tells which, and `AddsOnly` of which sort.  Each step of a course has its law, and laws
compose along `bind`.
-/

namespace StorageLoad

namespace Course

variable {σ ρ α β : Type}

theorem exists_of_bind {course : Course σ ρ α} {next : α → Course σ ρ β}
    {s s'' : Scene σ ρ} {b : β} (h : (course >>= next) s = some (b, s'')) :
    ∃ a s', course s = some (a, s') ∧ next a s' = some (b, s'') := by
  obtain ⟨⟨a, s'⟩, hfirst, hrest⟩ := Option.bind_eq_some_iff.mp h
  exact ⟨a, s', hfirst, hrest⟩

/-- If the course ends, it adds events to the journal for which the condition holds, told oldest
first. -/
def Adds (course : Course σ ρ α) (post : α → List Event → Prop) : Prop :=
  ∀ s a s', course s = some (a, s') →
    ∃ events, s'.journal = events.reverse ++ s.journal ∧ post a events

theorem Adds.mono {course : Course σ ρ α} {post post' : α → List Event → Prop}
    (h : course.Adds post) (himp : ∀ a events, post a events → post' a events) :
    course.Adds post' := by
  intro s a s' hs
  obtain ⟨events, hjournal, hpost⟩ := h s a s' hs
  exact ⟨events, hjournal, himp a events hpost⟩

theorem adds_pure (a : α) : (pure a : Course σ ρ α).Adds fun b events => b = a ∧ events = [] := by
  intro s b s' hs
  obtain ⟨rfl, rfl⟩ := Prod.mk.inj (Option.some.inj hs)
  exact ⟨[], rfl, rfl, rfl⟩

/-- A course after another adds its events after those of the first. -/
theorem Adds.bind {course : Course σ ρ α} {next : α → Course σ ρ β} {post : α → List Event → Prop}
    {post' : β → List Event → Prop} (h : course.Adds post)
    (hnext : ∀ a first, post a first → (next a).Adds fun b rest => post' b (first ++ rest)) :
    (course >>= next).Adds post' := by
  intro s b s'' hs
  obtain ⟨a, s', hfirst, hrest⟩ := exists_of_bind hs
  obtain ⟨first, hjournal, hpost⟩ := h s a s' hfirst
  obtain ⟨rest, hjournal', hpost'⟩ := hnext a first hpost s' b s'' hrest
  refine ⟨first ++ rest, ?_, hpost'⟩
  rw [hjournal', hjournal, List.reverse_append, List.append_assoc]

theorem events_eq_of_journal {events events' journal : List Event}
    (h : events.reverse ++ journal = events'.reverse ++ journal) : events = events' :=
  List.reverse_inj.mp (List.append_cancel_right h)

theorem Adds.and {course : Course σ ρ α} {post post' : α → List Event → Prop}
    (h : course.Adds post) (h' : course.Adds post') :
    course.Adds fun a events => post a events ∧ post' a events := by
  intro s a s' hs
  obtain ⟨events, hjournal, hpost⟩ := h s a s' hs
  obtain ⟨events', hjournal', hpost'⟩ := h' s a s' hs
  obtain rfl := events_eq_of_journal (hjournal.symm.trans hjournal')
  exact ⟨events, hjournal, hpost, hpost'⟩

theorem adds_endless (post : α → List Event → Prop) : (endless : Course σ ρ α).Adds post := by
  intro s a s' hs
  cases hs

theorem adds_note (e : Event) : (note e : Course σ ρ Unit).Adds fun _ events => events = [e] := by
  intro s a s' hs
  obtain ⟨-, rfl⟩ := Prod.mk.inj (Option.some.inj hs)
  exact ⟨[e], rfl, rfl⟩

theorem adds_draw (f : ρ → α × ρ) :
    (draw f : Course σ ρ α).Adds fun a events => (∃ r, a = (f r).1) ∧ events = [] := by
  intro s a s' hs
  obtain ⟨rfl, rfl⟩ := Prod.mk.inj (Option.some.inj hs)
  exact ⟨[], rfl, ⟨s.random, rfl⟩, rfl⟩

/-- The course adds only events of a sort. -/
def AddsOnly (sort : Event → Prop) (course : Course σ ρ α) : Prop :=
  course.Adds fun _ events => ∀ e ∈ events, sort e

variable {sort : Event → Prop}

theorem Adds.addsOnly {course : Course σ ρ α} {post : α → List Event → Prop}
    (h : course.Adds post) (hnone : ∀ a events, post a events → events = []) :
    course.AddsOnly sort := by
  apply h.mono
  intro a events hpost e he
  rw [hnone a events hpost] at he
  exact absurd he List.not_mem_nil

theorem addsOnly_pure (a : α) : (pure a : Course σ ρ α).AddsOnly sort :=
  (adds_pure a).addsOnly fun _ _ h => h.2

theorem AddsOnly.bind {course : Course σ ρ α} {next : α → Course σ ρ β} (h : course.AddsOnly sort)
    (hnext : ∀ a, (next a).AddsOnly sort) : (course >>= next).AddsOnly sort := by
  apply Adds.bind h
  intro a first hfirst
  apply (hnext a).mono
  intro b rest hrest e he
  rcases List.mem_append.mp he with he | he
  · exact hfirst e he
  · exact hrest e he

theorem addsOnly_note {e : Event} (he : sort e) : (note e : Course σ ρ Unit).AddsOnly sort := by
  apply (adds_note e).mono
  rintro a events rfl d hd
  rwa [List.mem_singleton.mp hd]

variable [Surroundings σ]

theorem adds_now : (now : Course σ ρ Int).Adds fun _ events => events = [] := by
  intro s a s' hs
  obtain ⟨-, rfl⟩ := Prod.mk.inj (Option.some.inj hs)
  exact ⟨[], rfl, rfl⟩

theorem adds_elapsed (start : Int) :
    (elapsed start : Course σ ρ Int).Adds fun _ events => events = [] := by
  apply Adds.bind adds_now
  rintro a first rfl
  exact (adds_pure _).mono fun _ _ h => h.2

end Course

namespace Action

variable {σ ρ α β : Type} {sort : Event → Prop}

/-- The action adds only events of a sort, whether it fails or not. -/
def AddsOnly (sort : Event → Prop) (action : Action σ ρ α) : Prop :=
  Course.AddsOnly sort action.run

theorem addsOnly_of_run_eq_pure {action : Action σ ρ α} {answer : Outcome α}
    (h : action.run = pure answer) : action.AddsOnly sort := by
  rw [AddsOnly, h]
  exact Course.addsOnly_pure answer

theorem addsOnly_pure (a : α) : (pure a : Action σ ρ α).AddsOnly sort :=
  addsOnly_of_run_eq_pure rfl

theorem addsOnly_throw (fault : Fault) : (throw fault : Action σ ρ α).AddsOnly sort :=
  addsOnly_of_run_eq_pure rfl

theorem addsOnly_lift (answer : Outcome α) : (liftM answer : Action σ ρ α).AddsOnly sort :=
  addsOnly_of_run_eq_pure rfl

theorem addsOnly_liftNumber (answer : Except NumberFault α) :
    (liftM answer : Action σ ρ α).AddsOnly sort :=
  addsOnly_of_run_eq_pure rfl

theorem addsOnly_liftShape (answer : Except ShapeFault α) :
    (liftM answer : Action σ ρ α).AddsOnly sort :=
  addsOnly_of_run_eq_pure rfl

theorem AddsOnly.bind {action : Action σ ρ α} {next : α → Action σ ρ β} (h : action.AddsOnly sort)
    (hnext : ∀ a, (next a).AddsOnly sort) : (action >>= next).AddsOnly sort := by
  rw [AddsOnly, ExceptT.run_bind]
  apply Course.AddsOnly.bind h
  intro answer
  cases answer with
  | error fault => exact Course.addsOnly_pure _
  | ok a => exact hnext a

theorem addsOnly_ofCourse {course : Course σ ρ α} (h : course.AddsOnly sort) :
    (ofCourse course).AddsOnly sort :=
  Course.AddsOnly.bind h fun _ => Course.addsOnly_pure _

theorem addsOnly_note {e : Event} (he : sort e) : (note e : Action σ ρ Unit).AddsOnly sort :=
  addsOnly_ofCourse (Course.addsOnly_note he)

theorem addsOnly_lift_bind (answer : Outcome α) {next : α → Action σ ρ β}
    (hnext : ∀ a, answer = .ok a → (next a).AddsOnly sort) :
    ((liftM answer : Action σ ρ α) >>= next).AddsOnly sort := by
  cases answer with
  | error fault => exact addsOnly_of_run_eq_pure rfl
  | ok a => exact hnext a rfl

theorem addsOnly_draw_bind (f : ρ → α × ρ) {next : α → Action σ ρ β}
    (hnext : ∀ r, (next (f r).1).AddsOnly sort) : (draw f >>= next).AddsOnly sort := by
  rw [AddsOnly, draw, ofCourse, ExceptT.run_bind_lift]
  apply Course.Adds.bind (Course.adds_draw f)
  rintro _ _ ⟨⟨r, rfl⟩, rfl⟩
  exact hnext r

theorem addsOnly_drawOutcome_bind (f : ρ → Outcome α × ρ) {next : α → Action σ ρ β}
    (hnext : ∀ r a, (f r).1 = .ok a → (next a).AddsOnly sort) :
    (drawOutcome f >>= next).AddsOnly sort := by
  rw [AddsOnly, ExceptT.run_bind]
  apply Course.Adds.bind (Course.adds_draw f)
  rintro answer _ ⟨⟨r, hr⟩, rfl⟩
  cases answer with
  | error fault => exact Course.addsOnly_pure _
  | ok a => exact hnext r a hr.symm

theorem adds_nothing {action : Action σ ρ α} (h : action.AddsOnly fun _ => False) :
    Course.Adds action.run fun _ events => events = [] :=
  h.mono fun _ _ hnone => List.eq_nil_iff_forall_not_mem.mpr hnone

theorem adds_bind_of_silent {action : Action σ ρ α} {next : α → Action σ ρ β}
    {post : List Event → Prop} (h : Course.Adds action.run fun _ events => events = [])
    (hnone : post []) (hnext : ∀ a, Course.Adds (next a).run fun _ events => post events) :
    Course.Adds (action >>= next).run fun _ events => post events := by
  rw [ExceptT.run_bind]
  apply Course.Adds.bind h
  rintro answer _ rfl
  cases answer with
  | error fault =>
      apply (Course.adds_pure _).mono
      rintro _ _ ⟨-, rfl⟩
      exact hnone
  | ok a => exact hnext a

theorem adds_draw (f : ρ → α × ρ) :
    Course.Adds (draw f : Action σ ρ α).run fun _ events => events = [] := by
  have hlift : (draw f : Action σ ρ α).run = Course.draw f >>= fun a => pure (.ok a) := rfl
  rw [hlift]
  apply (Course.adds_draw f).bind
  rintro a _ ⟨-, rfl⟩
  exact (Course.adds_pure _).mono fun _ _ h => h.2

theorem adds_drawOutcome (f : ρ → Outcome α × ρ) :
    Course.Adds (drawOutcome f : Action σ ρ α).run fun _ events => events = [] :=
  (Course.adds_draw f).mono fun _ _ h => h.2

variable [Surroundings σ]

theorem addsOnly_now : (now : Action σ ρ Int).AddsOnly sort :=
  addsOnly_ofCourse (Course.adds_now.addsOnly fun _ _ h => h)

theorem addsOnly_elapsed (start : Int) : (elapsed start : Action σ ρ Int).AddsOnly sort :=
  addsOnly_ofCourse ((Course.adds_elapsed start).addsOnly fun _ _ h => h)

theorem addsOnly_call (request : Request) : (call request : Action σ ρ Reply).AddsOnly sort := by
  intro s a s' hs
  obtain ⟨⟨answer, world⟩, -, heq⟩ := Option.map_eq_some_iff.mp hs
  obtain ⟨-, rfl⟩ := Prod.mk.inj heq
  exact ⟨[], rfl, by simp⟩

theorem adds_ask (request : Request) :
    Course.Adds (ask request : Action σ ρ Reply).run fun _ events =>
      events = [.asked request] := by
  intro s answer s' hs
  obtain ⟨⟨reply, world⟩, -, heq⟩ := Option.map_eq_some_iff.mp hs
  obtain ⟨-, rfl⟩ := Prod.mk.inj heq
  exact ⟨[.asked request], rfl, rfl⟩

theorem addsOnly_ask {request : Request} (h : sort (.asked request)) :
    (ask request : Action σ ρ Reply).AddsOnly sort :=
  (addsOnly_note h).bind fun _ => addsOnly_call request

theorem addsOnly_sleep {ms : Int} (h : sort (.slept ms)) :
    (sleep ms : Action σ ρ Unit).AddsOnly sort := by
  apply (addsOnly_liftNumber (Clock.seconds ms)).bind
  intro _
  apply (addsOnly_note h).bind
  intro _ s a s' hs
  obtain ⟨-, rfl⟩ := Prod.mk.inj (Option.some.inj hs)
  exact ⟨[], rfl, by simp⟩

end Action

end StorageLoad
