import StorageLoad.Proofs.Deadline

/-!
Runs that are broken off. `Curtailed` surroundings are as others are, but only for so long; in
them every run comes to an end (`exists_curtailed`).  What is known of all runs that end, in any
surroundings, is thus known of whatever a run does before any moment, whether or not it would ever
end.
-/

namespace StorageLoad

/-- Surroundings that are as others are until they have been dealt with so many times, or a call
does not end.  From then on every call fails, and the clock leaps ahead at every reading. -/
structure Curtailed (σ : Type) where
  world : σ
  left : Nat
  /-- The latest time that the clock has shown. -/
  latest : Int
  leap : Nat

namespace Curtailed

variable {σ : Type}

def outage : Fault :=
  .reported .storage "interrupted"

instance [Surroundings σ] : Surroundings (Curtailed σ) where
  call request w :=
    match w.left, Surroundings.call request w.world with
    | left + 1, some (answer, world) => some (answer, { w with world, left })
    | _, _ => some (.error outage, { w with left := 0 })
  now w :=
    match w.left with
    | 0 => (w.latest + w.leap, { w with latest := w.latest + w.leap })
    | left + 1 =>
        let (time, world) := Surroundings.now w.world
        (time, { w with world, left, latest := max w.latest time })
  sleep ms w :=
    match w.left with
    | 0 => (.ok (), w)
    | left + 1 =>
        let (answer, world) := Surroundings.sleep ms w.world
        (answer, { w with world, left })

/-- The surroundings of a run that is broken off after so many dealings. -/
def after {𝕜 : Type} (c : Settings 𝕜) (dealings : Nat) (world : σ) : Curtailed σ :=
  { world, left := dealings, latest := 0, leap := c.durationMs.toNat }

/-- Of `total` dealings, so many are past since the clock has shown a time, and a leap is long
enough. -/
structure IsPast (total : Nat) (start duration past : Int) (w : Curtailed σ) : Prop where
  nonneg : 0 ≤ past
  le_total : past + w.left ≤ total
  le_latest : start ≤ w.latest
  le_leap : duration ≤ w.leap

end Curtailed

open Course Curtailed

variable {σ ρ τ 𝕜 α β : Type} {total : Nat} {start duration t : Int}

namespace Course

variable {past : Int → σ → Prop} {course : Course σ ρ α} {next : α → Course σ ρ β}
  {post : α → List Event → Int → Prop}

/-- The course ends, if it starts when so much is past. -/
def Concludes (past : Int → σ → Prop) (t : Int) (course : Course σ ρ α) : Prop :=
  Comes past t course course fun _ _ _ => True

theorem Comes.concludes (h : Comes past t course course post) : course.Concludes past t :=
  h.mono fun _ _ _ _ _ => trivial

theorem concludes_pure (a : α) : (pure a : Course σ ρ α).Concludes past t :=
  comes_pure trivial

theorem Comes.bind_concludes (h : Comes past t course course post)
    (hnext : ∀ a events t', t ≤ t' → post a events t' → (next a).Concludes past t') :
    (course >>= next).Concludes past t :=
  h.bind hnext

theorem Concludes.bind (h : course.Concludes past t)
    (hnext : ∀ a t', t ≤ t' → (next a).Concludes past t') : (course >>= next).Concludes past t :=
  h.bind_concludes fun a _ t' hle _ => hnext a t' hle

theorem concludes_note (e : Event) : (note e : Course σ ρ Unit).Concludes past t :=
  (comes_note e).concludes

theorem concludes_of_imp {course : Course (Curtailed σ) ρ α}
    (h : 0 ≤ t → t ≤ total → course.Concludes (IsPast total start duration) t) :
    course.Concludes (IsPast total start duration) t := by
  have hmay : ∀ w : Curtailed σ, IsPast total start duration t w →
      course.Concludes (IsPast total start duration) t := by
    rintro w ⟨hpos, hle, -, -⟩
    exact h hpos (by omega)
  exact ⟨fun s a s' hpast => (hmay _ hpast).1 s a s' hpast, fun s hpast =>
    (hmay _ hpast).2 s hpast⟩

end Course

namespace Action

variable {past : Int → σ → Prop} {action : Action σ ρ α} {next : α → Action σ ρ β}

/-- Whenever it starts, the action ends. -/
def Concludes (past : Int → σ → Prop) (action : Action σ ρ α) : Prop :=
  ∀ t, Course.Concludes past t action.run

theorem run_bind_concludes {post : Outcome α → List Event → Int → Prop}
    (h : Comes past t action.run action.run post)
    (hnext : ∀ a events t', t ≤ t' → post (.ok a) events t' →
      Course.Concludes past t' (next a).run) :
    Course.Concludes past t (action >>= next).run := by
  rw [ExceptT.run_bind]
  apply Comes.bind_concludes h
  intro answer events t' hle hpost
  cases answer with
  | error fault => exact Course.concludes_pure _
  | ok a => exact hnext a events t' hle hpost

theorem Concludes.bind (h : action.Concludes past) (hnext : ∀ a, (next a).Concludes past) :
    (action >>= next).Concludes past :=
  fun t => run_bind_concludes (h t) fun a _ t' _ _ => hnext a t'

theorem concludes_lift (answer : Outcome α) : (liftM answer : Action σ ρ α).Concludes past :=
  fun _ => Course.concludes_pure _

theorem concludes_pure (a : α) : (pure a : Action σ ρ α).Concludes past :=
  fun _ => Course.concludes_pure _

theorem concludes_ofCourse {course : Course σ ρ α} (h : ∀ t, course.Concludes past t) :
    (ofCourse course).Concludes past := by
  intro t
  rw [run_ofCourse]
  exact (h t).bind fun _ _ _ => Course.concludes_pure _

theorem concludes_note (e : Event) : (note e : Action σ ρ Unit).Concludes past :=
  concludes_ofCourse fun _ => Course.concludes_note e

theorem concludes_drawOutcome (f : ρ → Outcome α × ρ) :
    (drawOutcome f : Action σ ρ α).Concludes past :=
  fun _ => Comes.concludes ⟨spans_draw f, ends_draw f⟩

end Action

section Dealings

variable [Surroundings σ]

theorem Course.comes_now :
    Comes (IsPast total start duration) t (now : Course (Curtailed σ) ρ Int) now
      fun time _ t' => start + duration ≤ time ∨ t' = t + 1 := by
  refine ⟨?_, ends_now⟩
  rintro ⟨⟨world, left, latest, leap⟩, random, journal⟩ time s' ⟨hpos, hpast, hstart, hleap⟩ hs
  obtain ⟨rfl, rfl⟩ := Prod.mk.inj (Option.some.inj hs)
  cases left with
  | zero =>
      refine ⟨[], t, rfl, Int.le_refl _, ⟨hpos, hpast, ?_, hleap⟩, Or.inl ?_⟩
      · exact Int.le_trans hstart (Int.le_add_of_nonneg_right (Int.natCast_nonneg leap))
      · exact Int.add_le_add hstart hleap
  | succ left =>
      have hlatest := Int.le_trans hstart (Int.le_max_left latest (Surroundings.now world).1)
      refine ⟨[], t + 1, rfl, by omega, ⟨by omega, ?_, hlatest, hleap⟩, Or.inr rfl⟩
      change t + ((left + 1 : Nat) : Int) ≤ total at hpast
      change t + 1 + (left : Int) ≤ total
      omega

theorem Curtailed.isPast_now {w : Curtailed σ} (hleft : w.left ≤ total)
    (hleap : duration ≤ w.leap) :
    IsPast total (Surroundings.now w).1 duration 0 (Surroundings.now w).2 := by
  obtain ⟨world, left, latest, leap⟩ := w
  cases left with
  | zero => exact ⟨Int.le_refl _, by simp [Surroundings.now], Int.le_refl _, hleap⟩
  | succ left =>
      refine ⟨Int.le_refl _, ?_, Int.le_max_right _ _, hleap⟩
      change left + 1 ≤ total at hleft
      change 0 + (left : Int) ≤ total
      omega

theorem Curtailed.call_cases (request : Request) (w : Curtailed σ) :
    Surroundings.call request w = some (.error outage, { w with left := 0 }) ∨
      ∃ left answer world, w.left = left + 1 ∧
        Surroundings.call request w = some (answer, { w with world, left }) := by
  obtain ⟨world, left, latest, leap⟩ := w
  cases left with
  | zero => exact Or.inl rfl
  | succ left =>
      cases hcall : Surroundings.call request world with
      | none => exact Or.inl (by simp only [Surroundings.call, hcall])
      | some answered =>
          exact Or.inr ⟨left, answered.1, answered.2,
            rfl, by simp only [Surroundings.call, hcall]⟩

theorem Course.exists_of_first {e : Event} {next : Int → Course (Curtailed σ) ρ α}
    (hnext : ∀ start, (next start).Concludes (IsPast total start duration) 0)
    {s : Scene (Curtailed σ) ρ} (hleft : s.world.left ≤ total) (hleap : duration ≤ s.world.leap) :
    ∃ result, (note e >>= fun _ => now >>= next) s = some result := by
  obtain ⟨result, hresult, -⟩ :=
    (hnext _).2 ⟨_, s.random, e :: s.journal⟩ (isPast_now hleft hleap)
  exact ⟨result, hresult⟩

theorem Course.comes_elapsed (since : Int) :
    Comes (IsPast total start duration) t (elapsed since : Course (Curtailed σ) ρ Int)
      (elapsed since) fun ms _ t' => since = start → ms < duration → t' = t + 1 := by
  apply comes_now.bind
  intro time _ t' _ hread
  apply comes_pure
  rintro rfl hearly
  rw [Clock.elapsed] at hearly
  omega

namespace Action

theorem comes_ask (request : Request) :
    Comes (IsPast total start duration) t (ask request : Action (Curtailed σ) ρ Reply).run
      (ask request).run fun answer _ t' => ∀ reply, answer = .ok reply → t' = t + 1 := by
  constructor
  · intro s answer s' hpast hs
    obtain ⟨⟨reply, w⟩, hcall, heq⟩ := Option.map_eq_some_iff.mp hs
    obtain ⟨rfl, rfl⟩ := Prod.mk.inj heq
    obtain ⟨hpos, hle, hstart, hleap⟩ := hpast
    rcases call_cases request s.world with hfails | ⟨left, reply', world, hleft, hanswers⟩
    · obtain ⟨rfl, rfl⟩ := Prod.mk.inj (Option.some.inj (hcall.symm.trans hfails))
      exact ⟨[.asked request], t, rfl, Int.le_refl _,
        ⟨hpos, by dsimp only; omega, hstart, hleap⟩, by simp⟩
    · obtain ⟨rfl, rfl⟩ := Prod.mk.inj (Option.some.inj (hcall.symm.trans hanswers))
      refine ⟨[.asked request], t + 1, rfl, by omega, ⟨by omega, ?_, hstart, hleap⟩,
        fun _ _ => rfl⟩
      dsimp only
      omega
  · apply ends_of_isSome
    intro s
    rcases call_cases request s.world with hfails | ⟨left, reply, world, hleft, hanswers⟩
    · exact ⟨_, Option.map_eq_some_iff.mpr ⟨_, hfails, rfl⟩⟩
    · exact ⟨_, Option.map_eq_some_iff.mpr ⟨_, hanswers, rfl⟩⟩

theorem concludes_now :
    (now : Action (Curtailed σ) ρ Int).Concludes (IsPast total start duration) :=
  concludes_ofCourse fun _ => comes_now.concludes

theorem concludes_elapsed (since : Int) :
    (elapsed since : Action (Curtailed σ) ρ Int).Concludes (IsPast total start duration) :=
  concludes_ofCourse fun _ => (comes_elapsed since).concludes

theorem concludes_sleep (ms : Int) :
    (sleep ms : Action (Curtailed σ) ρ Unit).Concludes (IsPast total start duration) := by
  refine (concludes_lift _).bind fun _ => (concludes_note _).bind fun _ t =>
    ⟨?_, ends_of_isSome fun _ => ⟨_, rfl⟩⟩
  rintro ⟨⟨world, left, latest, leap⟩, random, journal⟩ answer s' ⟨hpos, hpast, hstart, hleap⟩ hs
  obtain ⟨rfl, rfl⟩ := Prod.mk.inj (Option.some.inj hs)
  cases left with
  | zero => exact ⟨[], t, rfl, Int.le_refl _, ⟨hpos, hpast, hstart, hleap⟩, trivial⟩
  | succ left =>
      refine ⟨[], t + 1, rfl, by omega, ⟨by omega, ?_, hstart, hleap⟩, trivial⟩
      change t + ((left + 1 : Nat) : Int) ≤ total at hpast
      change t + 1 + (left : Int) ≤ total
      omega

theorem isLaw_concludes :
    IsLaw fun {α} (action _ : Action (Curtailed σ) ρ α) =>
      action.Concludes (IsPast total start duration) where
  answer := concludes_lift
  draw := concludes_drawOutcome
  ask := fun request _ => (comes_ask request).concludes
  bind := .bind

end Action

namespace Operation

open StorageLoad.Action

variable {c : Settings 𝕜} {polls : Nat}

theorem concludes_awaitReplicas (path : Path) (replicas since : Int)
    (hpolls : total < t + polls) :
    Course.Concludes (IsPast total start duration) t
      (awaitReplicas c path replicas since polls : Action (Curtailed σ) ρ Unit).run := by
  induction polls generalizing t with
  | zero => exact concludes_of_imp fun _ hle => by omega
  | succ polls ih =>
      rw [awaitReplicas]
      apply run_bind_concludes (comes_ask _)
      intro factor _ t₁ _ hanswered
      have ht₁ := hanswered factor rfl
      split
      · exact ((concludes_elapsed since).bind fun _ => concludes_note _) t₁
      · apply run_bind_concludes (concludes_elapsed since t₁)
        intro elapsed _ t₂ hle₂ _
        split
        · exact Course.concludes_pure _
        · apply run_bind_concludes (concludes_sleep c.pollMs t₂)
          intro _ _ t₃ hle₃ _
          exact ih (by omega)

variable [RandomSource ρ]

theorem concludes_perform (hpolls : total < polls) (space : Namespace) {kind : Kind}
    (hkind : kind ≠ .sleep) :
    (perform polls c space kind : Action (Curtailed σ) ρ (List Record)).Concludes
      (IsPast total start duration) := by
  have hwait : ∀ path replicas, (do awaitReplicas c path replicas (← Action.now) polls :
      Action (Curtailed σ) ρ Unit).Concludes (IsPast total start duration) := by
    intro path replicas
    refine concludes_now.bind fun since t => concludes_of_imp fun hpos _ => ?_
    exact concludes_awaitReplicas path replicas since (by omega)
  exact isLaw_perform isLaw_concludes polls polls hwait space hkind

theorem concludes_run (hpolls : total < polls) (kind : Kind) :
    (run polls c kind : Action (Curtailed σ) ρ (List Record)).Concludes
    (IsPast total start duration) := by
  rw [run]
  split
  · rw [pause]
    cases c.pause with
    | none => exact concludes_lift _
    | some range =>
        refine (isLaw_concludes.drawn _).bind fun ms => concludes_now.bind fun since => ?_
        refine (concludes_sleep ms).bind fun _ => (concludes_elapsed since).bind fun _ => ?_
        exact Action.concludes_pure _
  · rename_i hkind
    refine (concludes_lift _).bind fun space => concludes_now.bind fun since => ?_
    refine (concludes_ofCourse (concludes_perform hpolls space hkind)).bind fun answer => ?_
    cases answer with
    | ok outputs => exact (concludes_elapsed since).bind fun _ => Action.concludes_pure _
    | error fault =>
        dsimp only
        split
        · exact (concludes_elapsed since).bind fun _ => Action.concludes_pure _
        · exact concludes_lift _

end Operation

namespace Worker

variable [RandomSource ρ] {c : Settings 𝕜} {polls : Nat}

theorem concludes_attempt (hpolls : total < polls) (turn : Outcome (List Record) → Turn)
    (number : Nat) (kind : Kind) :
    (attempt polls c turn number kind : Action (Curtailed σ) ρ Unit).Concludes
      (IsPast total start duration) := by
  refine (Action.concludes_note _).bind fun _ => Action.concludes_now.bind fun since => ?_
  refine (Action.concludes_ofCourse (Operation.concludes_run hpolls kind)).bind fun answer => ?_
  refine (Action.concludes_note _).bind fun _ =>
    (Action.concludes_lift answer).bind fun outputs => ?_
  refine (Action.concludes_elapsed since).bind fun time =>
    (Action.concludes_note _).bind fun _ t => ?_
  exact Comes.concludes ⟨spans_emitAll outputs, ends_emitAll outputs⟩

theorem concludes_round (policy : Policy τ ρ) (hpolls : total < polls) (p : Progress τ) :
    (round policy polls c start p : Course (Curtailed σ) ρ (Next × Progress τ)).Concludes
      (IsPast total start duration) t := by
  rw [round]
  refine (concludes_note _).bind fun _ _ _ =>
    (comes_elapsed start).concludes.bind fun elapsed _ _ => ?_
  refine (comes_select policy p.memory elapsed).concludes.bind ?_
  rintro ⟨answer, memory⟩ t₁ -
  cases answer with
  | error fault => exact (comes_recover _ none fault).concludes
  | ok choice =>
      cases choice with
      | none => exact concludes_pure _
      | some kind =>
          refine (concludes_attempt hpolls (.ran kind) _ kind t₁).bind fun result t₂ _ => ?_
          cases result with
          | error fault => exact (comes_recover _ (some kind) fault).concludes
          | ok =>
              dsimp only
              split
              · exact concludes_pure _
              · refine (concludes_attempt hpolls .paused _ .sleep t₂).bind fun result t₃ _ => ?_
                cases result with
                | error fault => exact (comes_recover _ (some .sleep) fault).concludes
                | ok => exact concludes_pure _

/-- Each round takes a dealing, or is the last one as the time is up. -/
theorem concludes_loop (policy : Policy τ ρ) (hpolls : total < polls) {rounds : Nat}
    (hrounds : total < t + rounds) (p : Progress τ) :
    (loop policy polls c start rounds p : Course (Curtailed σ) ρ (Ending × Progress τ)).Concludes
      (IsPast total start c.durationMs) t := by
  induction rounds generalizing p t with
  | zero => exact concludes_of_imp fun _ hle => by omega
  | succ rounds ih =>
      rw [loop]
      apply (comes_elapsed start).bind_concludes
      intro elapsed _ t₁ _ hdealt
      apply (comes_note _).bind_concludes
      rintro _ _ t₁ - ⟨-, rfl⟩
      split
      · exact concludes_pure _
      · rename_i hover
        have ht₁ := hdealt rfl (Int.not_le.mp hover)
        apply (concludes_round policy hpolls p).bind
        rintro ⟨next, q⟩ t₂ hle₂
        cases next with
        | stop ending => exact concludes_pure _
        | again => exact ih (by omega) q

/-- Broken off after any number of dealings, a run ends. -/
theorem exists_curtailed (policy : Policy τ ρ) (c : Settings 𝕜) (key value : String) (world : σ)
    (random : ρ) (dealings : Nat) :
    ∃ a, accountWith policy (dealings + 1) c key value (Curtailed.after c dealings world) random =
      some a := by
  have hrun : ∃ result, runWith policy (dealings + 1) c key value
      (⟨Curtailed.after c dealings world, random, []⟩ : Scene (Curtailed σ) ρ) = some result := by
    have hleft : (Curtailed.after c dealings world).left ≤ dealings := Nat.le_refl _
    rw [runWith]
    refine exists_of_first (fun start => ?_) hleft (Int.self_le_toNat _)
    apply (concludes_loop policy (Nat.lt_succ_self _) (by omega) (Progress.start policy)).bind
    rintro ⟨ending, p⟩ t -
    refine (comes_elapsed start).concludes.bind fun time _ _ => ?_
    refine (concludes_note _).bind fun _ _ _ => (concludes_note _).bind fun _ _ _ => ?_
    exact (concludes_note _).bind fun _ _ _ => concludes_pure _
  obtain ⟨⟨ending, s⟩, hrun⟩ := hrun
  exact ⟨_, Option.map_eq_some_iff.mpr ⟨_, hrun, rfl⟩⟩

end Worker

end Dealings

end StorageLoad
