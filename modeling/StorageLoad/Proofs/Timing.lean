import StorageLoad.Proofs.Job
import StorageLoad.Proofs.Pace
import StorageLoad.Proofs.Shared

/-!
The times that a run tells.  With a clock that never goes back, every attempt and every pause
takes its time between two readings of the worker, one after the other, so that all their times
together are no more than that of the worker (`times_accounted`).
-/

namespace StorageLoad

open Measurement (timeTaken opCount)

theorem Kind.sum_ite (kind : Kind) (ms : Int) :
    (all.map fun other => if other = kind then ms else 0).sum = ms := by
  cases kind <;> simp [all]

namespace Record

variable {records rest : List Record}

/-- Whether a statistic is a time other than that of a worker as a whole. -/
def isOtherTime (r : Record) : Bool :=
  r.measurement = timeTaken ∧ r.opType ≠ Worker.opType

/-- What all times but those of workers add up to. -/
def otherTimes (records : List Record) : Int :=
  ((records.filter isOtherTime).map (·.figure.amount)).sum

/-- What the times of all attempts and pauses add up to. -/
def spent (records : List Record) : Int :=
  (Kind.all.map fun kind => total records kind.name timeTaken).sum

theorem spent_nil : spent [] = 0 :=
  rfl

theorem spent_append (records rest : List Record) :
    spent (records ++ rest) = spent records + spent rest := by
  simp only [spent, total_append, List.sum_map_add]

theorem spent_eq_total {kind : Kind} (h : ∀ r ∈ records, r.opType = kind.name) :
    spent records = total records kind.name timeTaken := by
  have hother : ∀ other ≠ kind, total records other.name timeTaken = 0 := by
    intro other hne
    apply total_eq_zero
    intro r hr heq
    exact absurd (Kind.name_injective (heq.symm.trans (h r hr))) hne
  have heach : ∀ other, total records other.name timeTaken =
      if other = kind then total records kind.name timeTaken else 0 := by
    intro other
    split
    · rename_i heq
      rw [heq]
    · rename_i hne
      exact hother other hne
  rw [spent, List.map_congr_left fun other _ => heach other, Kind.sum_ite]

/-- Whether a statistic is told of a worker or of a kind. -/
def IsAttributed (r : Record) : Prop :=
  r.opType = Worker.opType ∨ ∃ kind : Kind, r.opType = kind.name

theorem otherTimes_eq_spent (h : ∀ r ∈ records, r.IsAttributed) :
    otherTimes records = spent records := by
  induction records with
  | nil => rfl
  | cons r records ih =>
      obtain ⟨hr, hrecords⟩ := List.forall_mem_cons.mp h
      have hsplit : spent (r :: records) = spent [r] + spent records := spent_append [r] records
      have hone : otherTimes (r :: records) = otherTimes [r] + otherTimes records := by
        rw [← List.singleton_append, otherTimes, List.filter_append, List.map_append,
          List.sum_append]
        rfl
      rw [hsplit, hone, ih hrecords]
      congr 1
      rcases hr with hworker | ⟨kind, hkind⟩
      · have hnone : spent [r] = 0 := by
          apply List.sum_eq_zero
          intro n hn
          obtain ⟨kind, -, rfl⟩ := List.mem_map.mp hn
          apply total_eq_zero
          rintro s hs heq
          rw [List.mem_singleton.mp hs, hworker] at heq
          exact absurd heq (Worker.name_ne_opType kind)
        rw [hnone]
        simp [otherTimes, isOtherTime, hworker]
      · have hne : r.opType ≠ Worker.opType := by
          rw [hkind]
          exact (Worker.name_ne_opType kind).symm
        rw [spent_eq_total (by simpa using hkind)]
        by_cases htime : r.measurement = timeTaken
        · simp [otherTimes, total, amount, isOtherTime, hkind ▸ hne, hkind, htime]
        · simp [otherTimes, total, amount, isOtherTime, htime]

end Record

namespace Operation

open Record Worker

variable {kind : Kind} {outputs : List Record}

theorem IsResult.measurement_ne (h : IsResult kind outputs) :
    ∀ r ∈ outputs, r.measurement ≠ timeTaken := by
  rcases h with ⟨details, hdetails, rfl⟩ | rfl
  · have hsucceeded : Measurement.successes ≠ timeTaken := by decide
    exact List.forall_mem_cons.mpr ⟨hsucceeded, fun r hr => (hdetails r hr).measurement_ne⟩
  · simpa [Operation.missed, long] using (by decide : Measurement.failures ≠ timeTaken)

theorem total_took (kind : Kind) (ms : Int) : total [took kind ms] kind.name timeTaken = ms := by
  rw [total_cons, took, amount_long, if_pos ⟨rfl, rfl⟩]
  exact Int.add_zero ms

theorem total_append_took (h : ∀ r ∈ outputs, r.measurement ≠ timeTaken) (ms : Int) :
    total (outputs ++ [took kind ms]) kind.name timeTaken = ms := by
  rw [total_append, total_took, Record.total_eq_zero fun r hr _ => h r hr, Int.zero_add]

end Operation

/-- The times that are told among the events are not below zero, make up no more than some time,
and for each kind no more than the latencies of its operations. -/
structure Event.IsTimed (events : List Event) (ms : Int) : Prop where
  named : ∀ r ∈ events.filterMap record?, ∃ kind : Kind, r.opType = kind.name
  nonneg : ∀ r ∈ events.filterMap record?, r.measurement = timeTaken → 0 ≤ r.figure.amount
  spent_le : Record.spent (events.filterMap record?) ≤ ms
  total_le : ∀ kind : Kind, Record.total (events.filterMap record?) kind.name timeTaken ≤
    (events.filterMap (latency? kind)).sum

namespace Event

open Record Operation Worker

variable {events rest : List Event} {ms ms' : Int}

theorem IsTimed.append (h : IsTimed events ms) (h' : IsTimed rest ms') :
    IsTimed (events ++ rest) (ms + ms') := by
  constructor
  · rw [List.filterMap_append]
    exact List.forall_mem_append.mpr ⟨h.named, h'.named⟩
  · rw [List.filterMap_append]
    exact List.forall_mem_append.mpr ⟨h.nonneg, h'.nonneg⟩
  · rw [List.filterMap_append, spent_append]
    exact Int.add_le_add h.spent_le h'.spent_le
  · intro kind
    rw [List.filterMap_append, List.filterMap_append, total_append, List.sum_append]
    exact Int.add_le_add (h.total_le kind) (h'.total_le kind)

theorem IsTimed.mono (h : IsTimed events ms) (hle : ms ≤ ms') : IsTimed events ms' :=
  ⟨h.named, h.nonneg, Int.le_trans h.spent_le hle, h.total_le⟩

/-- An event that neither tells a statistic nor ends an operation. -/
def IsTimeless (e : Event) : Prop :=
  e.record? = none ∧ ∀ kind, e.latency? kind = none

theorem isTimed_of_isTimeless (h : ∀ e ∈ events, e.IsTimeless) : IsTimed events 0 := by
  have hrecords : events.filterMap record? = [] :=
    List.filterMap_eq_nil_iff.mpr fun e he => (h e he).1
  constructor
  · simp [hrecords]
  · simp [hrecords]
  · rw [hrecords, spent_nil]
  · intro kind
    rw [hrecords, List.filterMap_eq_nil_iff.mpr fun e he => (h e he).2 kind]
    rfl

theorem isTimeless_of_isOfOperation {e : Event} (h : e.IsOfOperation) : e.IsTimeless := by
  cases e with
  | asked request => exact ⟨rfl, fun _ => rfl⟩
  | slept ms => exact ⟨rfl, fun _ => rfl⟩
  | settled path replicas ms => exact ⟨rfl, fun _ => rfl⟩
  | _ => exact h.elim

theorem filterMap_latency?_emitted (records : List Record) (kind : Kind) :
    (records.map Event.emitted).filterMap (latency? kind) = [] := by
  simp [List.filterMap_map, Function.comp_def, latency?]

theorem filterMap_record?_report (number : Nat) (kind : Kind) (ms : Int) (records : List Record) :
    (.finished number kind ms :: records.map Event.emitted).filterMap record? = records := by
  rw [List.filterMap_cons_none rfl]
  simp [List.filterMap_map, Function.comp_def, record?]

/-- The end of an operation and what it reports are timed if the latency is no less than the
reported time. -/
theorem isTimed_report {kind : Kind} {outputs : List Record} (h : IsReport kind outputs)
    {number : Nat} (hnonneg : 0 ≤ total outputs kind.name timeTaken)
    (hle : total outputs kind.name timeTaken ≤ ms) :
    IsTimed (.finished number kind ms :: (sentOf (.ok outputs)).map Event.emitted) ms := by
  have hnamed : ∀ r ∈ sentOf (.ok outputs), r.opType = kind.name :=
    fun r hr => (h.isCount r (mem_of_mem_sentOf hr)).1
  have htotal : total (sentOf (.ok outputs)) kind.name timeTaken ≤ ms ∧
      ∀ r ∈ sentOf (.ok outputs), r.measurement = timeTaken → 0 ≤ r.figure.amount := by
    rcases h.sent_cases with ⟨-, hall⟩ | ⟨-, hnone⟩
    · obtain ⟨before, time, rfl, hbefore⟩ := h.exists_eq
      rw [total_append_took hbefore] at hnonneg hle
      rw [hall, total_append_took hbefore]
      refine ⟨hle, fun r hr htime => ?_⟩
      rcases List.mem_append.mp hr with hr | hr
      · exact absurd htime (hbefore r hr)
      · rw [List.mem_singleton.mp hr]
        exact hnonneg
    · rw [Record.total_eq_zero fun r hr _ => hnone r hr]
      exact ⟨Int.le_trans hnonneg hle, fun r hr htime => absurd htime (hnone r hr)⟩
  constructor
  · rw [filterMap_record?_report]
    exact fun r hr => ⟨kind, hnamed r hr⟩
  · rw [filterMap_record?_report]
    exact htotal.2
  · rw [filterMap_record?_report, spent_eq_total hnamed]
    exact htotal.1
  · intro other
    rw [filterMap_record?_report]
    by_cases hkind : kind = other
    · subst hkind
      have hlatency : latency? kind (.finished number kind ms) = some ms := if_pos rfl
      rw [List.filterMap_cons_some hlatency, filterMap_latency?_emitted]
      simpa using htotal.1
    · have hlatency : latency? other (.finished number kind ms) = none := if_neg hkind
      rw [List.filterMap_cons_none hlatency, filterMap_latency?_emitted,
        h.total_other (Ne.symm hkind)]
      rfl

end Event

namespace Operation

open Record Surroundings StorageLoad.Action

variable {σ ρ 𝕜 : Type} [RandomSource ρ] [Surroundings σ] {past : Int → σ → Prop} {t : Int}

/-- The time that is told of outputs is not below zero, and lies between two times. -/
def Fits (kind : Kind) (t : Int) (outputs : List Record) (t' : Int) : Prop :=
  0 ≤ total outputs kind.name timeTaken ∧ t + total outputs kind.name timeTaken ≤ t'

theorem fits_took {kind : Kind} {before : List Record}
    (h : ∀ r ∈ before, r.measurement ≠ timeTaken) {start t' : Int} (hstart : t ≤ start)
    (hle : start ≤ t') :
    Fits kind t (before ++ [took kind (Clock.elapsed start t')]) t' := by
  rw [Fits, total_append_took h]
  refine ⟨Clock.elapsed_nonneg start t', ?_⟩
  simp only [Clock.elapsed]
  omega

theorem passes_pause {c : Settings 𝕜} (h : Paces c.Sleeps past 0) (t : Int) :
    (pause c : Action σ ρ (List Record)).Passes past t (Fits .sleep t) := by
  rw [pause]
  cases hpause : c.pause with
  | none => exact passes_throw _
  | some range =>
      refine (passes_draw _).bind ?_
      rintro ms t₁ ht₁ ⟨-, r, rfl⟩
      have hms : c.Sleeps (range.draw r).1 := Or.inr ⟨range, hpause, range.draw_mem r⟩
      refine (passes_now h t₁).bind fun start t₂ ht₂ hstart => ?_
      subst hstart
      refine (lasts_sleep h hms).bind_passes fun _ t₃ ht₃ => ?_
      refine (passes_elapsed h start t₃).bind fun ms t₄ ht₄ hms => ?_
      subst hms
      have hbefore : ∀ r ∈ [succeeded .sleep], r.measurement ≠ timeTaken := by decide
      exact passes_pure (fits_took hbefore (by omega) (by omega))

theorem passes_run {c : Settings 𝕜} (h : Paces c.Sleeps past 0) (polls : Nat)
    (kind : Kind) (t : Int) :
    (run polls c kind : Action σ ρ (List Record)).Passes past t (Fits kind t) := by
  rw [run]
  split
  · rename_i hsleep
    rw [hsleep]
    exact passes_pause h t
  · rename_i hkind
    refine (passes_lift _).bind fun space t₁ ht₁ _ => ?_
    refine (passes_now h t₁).bind fun start t₂ ht₂ hstart => ?_
    subst hstart
    have hperform : Passes past start (ofCourse (perform polls c space kind : Action σ ρ _).run)
        fun answer _ => ∀ outputs, answer = .ok outputs → IsResult kind outputs := by
      apply passes_ofCourse
      have hresult : Returns (perform polls c space kind : Action σ ρ _) (IsResult kind) :=
        returns_perform polls c space hkind
      have hlasts := (lasts_perform h polls space hkind start).and_result hresult.of_run
      exact hlasts.mono fun _ _ _ _ hpost => hpost.2
    refine hperform.bind fun answer t₃ ht₃ hresult => ?_
    cases answer with
    | ok outputs =>
        refine (passes_elapsed h start t₃).bind fun ms t₄ ht₄ hms => ?_
        subst hms
        exact passes_pure (fits_took (hresult outputs rfl).measurement_ne (by omega) (by omega))
    | error fault =>
        dsimp only
        split
        · refine (passes_elapsed h start t₃).bind fun ms t₄ ht₄ hms => ?_
          subst hms
          have hbefore : ∀ r ∈ [missed kind, absent kind], r.measurement ≠ timeTaken := by
            simpa [missed, absent, long] using
              (by decide : Measurement.failures ≠ timeTaken ∧ Measurement.notFound ≠ timeTaken)
          exact passes_pure (fits_took hbefore (by omega) (by omega))
        · exact passes_throw fault

end Operation

namespace Worker

open Course Event Operation Record Surroundings

variable {σ ρ τ 𝕜 α β : Type} {past : Int → σ → Prop} {t : Int}

/-- If the course ends, the times that are told make up no more than the time it takes. -/
def Times (past : Int → σ → Prop) (course : Course σ ρ α) : Prop :=
  ∀ t, Spans past t course fun _ events t' => IsTimed events (t' - t)

variable {course : Course σ ρ α} {next : α → Course σ ρ β}

theorem Times.bind (h : Times past course) (hnext : ∀ a, Times past (next a)) :
    Times past (course >>= next) := by
  intro t
  apply (h t).bind
  intro a first t' _ hfirst
  apply (hnext a t').mono
  intro b rest t'' _ hrest
  exact (hfirst.append hrest).mono (by omega)

theorem times_of_timeless
    (h : ∀ t, Spans past t course fun _ events _ => ∀ e ∈ events, e.IsTimeless) :
    Times past course := by
  intro t
  apply (h t).mono
  intro a events t' hle hevents
  exact (isTimed_of_isTimeless hevents).mono (by omega)

theorem times_pure (a : α) : Times past (pure a : Course σ ρ α) :=
  times_of_timeless fun _ => spans_pure (by simp)

theorem times_note {e : Event} (he : e.IsTimeless) : Times past (note e : Course σ ρ Unit) := by
  apply times_of_timeless
  intro t
  apply (spans_note e).mono
  rintro _ _ _ - ⟨rfl, -⟩
  simpa using he

theorem times_draw (f : ρ → α × ρ) : Times past (draw f : Course σ ρ α) := by
  apply times_of_timeless
  intro t
  apply (spans_draw f).mono
  rintro _ _ _ - ⟨rfl, -⟩
  simp

variable [RandomSource ρ] [Surroundings σ] {c : Settings 𝕜}

omit [RandomSource ρ] in
theorem times_elapsed {sleeps : Int → Prop} (h : Paces sleeps past 0) (start : Int) :
    Times past (elapsed start : Course σ ρ Int) := by
  apply times_of_timeless
  intro t
  apply (spans_elapsed h start t).mono
  rintro _ _ _ - ⟨rfl, -⟩
  simp

theorem times_attempt (h : Paces c.Sleeps past 0) (polls : Nat)
    (turn : Outcome (List Record) → Turn) (number : Nat) (kind : Kind) :
    Times past (attempt polls c turn number kind : Action σ ρ Unit).run := by
  rw [run_attempt]
  refine (times_note ⟨rfl, fun _ => rfl⟩).bind fun _ t => ?_
  apply (spans_now h t).bind
  rintro start _ _ hle ⟨rfl, rfl⟩
  have hreturns : (run polls c kind : Action σ ρ (List Record)).Returns (IsReport kind) :=
    returns_run polls c kind
  have hfits : (run polls c kind : Action σ ρ _).Passes past start (Fits kind start) :=
    passes_run h polls kind start
  apply ((hfits.and_adds (addsOnly_run polls c kind)).and_result hreturns.of_run).bind
  rintro answer own t₁ hle₁ ⟨⟨hfits, hown⟩, hreport⟩
  have howned : IsTimed (own ++ [.turned (turn answer)]) 0 := by
    apply isTimed_of_isTimeless
    refine List.forall_mem_append.mpr ⟨fun e he => isTimeless_of_isOfOperation (hown e he), ?_⟩
    exact List.forall_mem_singleton.mpr ⟨rfl, fun _ => rfl⟩
  apply (spans_note _).bind
  rintro _ _ t₁ - ⟨rfl, rfl⟩
  cases answer with
  | error fault => exact spans_pure (howned.mono (by omega))
  | ok outputs =>
      obtain ⟨hnonneg, hfit⟩ := hfits outputs rfl
      apply (spans_elapsed h start t₁).bind
      rintro ms _ t₂ hle₂ ⟨rfl, rfl⟩
      apply (spans_note _).bind
      rintro _ _ t₂ - ⟨rfl, rfl⟩
      apply (spans_emitAll outputs).mono
      rintro _ _ t₂ - ⟨rfl, rfl⟩
      have hlatency : Clock.elapsed start t₂ = t₂ - start := by
        simp only [Clock.elapsed]
        omega
      have hreported : IsTimed (.finished number kind (Clock.elapsed start t₂) ::
          (sentOf (.ok outputs)).map Event.emitted) (Clock.elapsed start t₂) :=
        isTimed_report (hreport outputs rfl) hnonneg (by omega)
      have hall : IsTimed _ (t₂ - t) := (howned.append hreported).mono (by omega)
      simpa using hall

omit [RandomSource ρ] [Surroundings σ] in
theorem times_recover (c : Settings 𝕜) (p : Progress τ) (kind : Option Kind) (fault : Fault) :
    Times past (recover c p kind fault : Course σ ρ (Next × Progress τ)) :=
  (times_note ⟨rfl, fun _ => rfl⟩).bind fun _ => times_pure _

omit [RandomSource ρ] [Surroundings σ] in
theorem times_select (policy : Policy τ ρ) (c : Settings 𝕜) (memory : τ) (elapsed : Int) :
    Times past (select policy c memory elapsed : Course σ ρ (Outcome (Option Kind) × τ)) :=
  (times_draw _).bind fun _ => (times_note ⟨rfl, fun _ => rfl⟩).bind fun _ => times_pure _

theorem times_round (h : Paces c.Sleeps past 0) (policy : Policy τ ρ) (polls : Nat) (start : Int)
    (p : Progress τ) :
    Times past (round policy polls c start p : Course σ ρ (Next × Progress τ)) := by
  refine (times_note ⟨rfl, fun _ => rfl⟩).bind fun _ =>
    (times_elapsed h start).bind fun elapsed =>
    (times_select policy c p.memory elapsed).bind ?_
  rintro ⟨answer, memory⟩
  cases answer with
  | error fault => exact times_recover c _ none fault
  | ok choice =>
      cases choice with
      | none => exact times_pure _
      | some kind =>
          refine (times_attempt h polls (.ran kind) (p.operations + 1) kind).bind fun result => ?_
          cases result with
          | error fault => exact times_recover c _ (some kind) fault
          | ok =>
              dsimp only
              split
              · exact times_pure _
              · refine (times_attempt h polls .paused (p.pauses + 1) .sleep).bind fun result => ?_
                cases result with
                | error fault => exact times_recover c _ (some .sleep) fault
                | ok => exact times_pure _

omit [RandomSource ρ] [Surroundings σ] in
theorem IsRound.ne_timeout {c : Settings 𝕜} {turns : List Turn} {ending : Ending}
    (h : IsRound c turns (.stop ending)) : ending ≠ .timeout := by
  generalize hnext : Next.stop ending = next at h
  cases h with
  | exhausted =>
      rw [Next.stop.inj hnext]
      exact Ending.noConfusion
  | unpaused => cases hnext
  | paused => cases hnext
  | _ =>
      rw [(afterFailure_eq_stop_iff.mp hnext.symm).2]
      exact Ending.noConfusion

theorem spans_loop (h : Paces c.Sleeps past 0) (policy : Policy τ ρ) (polls : Nat) (start : Int)
    (rounds : Nat) (p : Progress τ) (t : Int) :
    Spans past t (loop policy polls c start rounds p : Course σ ρ (Ending × Progress τ))
      fun result events t' =>
      IsTimed events (t' - t) ∧
      (result.1 = .timeout → c.durationMs ≤ Clock.elapsed start t') := by
  induction rounds generalizing p t with
  | zero => exact spans_endless
  | succ rounds ih =>
      rw [loop]
      apply (spans_elapsed h start t).bind
      rintro ms _ t₁ hle₁ ⟨rfl, rfl⟩
      apply (spans_note _).bind
      rintro _ _ t₁ - ⟨rfl, rfl⟩
      have hlooked : IsTimed [.turned (.looked (Clock.elapsed start t₁))] 0 :=
        isTimed_of_isTimeless (List.forall_mem_singleton.mpr ⟨rfl, fun _ => rfl⟩)
      split
      · rename_i hover
        exact spans_pure ⟨hlooked.mono (by omega), fun _ => hover⟩
      · apply ((times_round h policy polls start p t₁).and_adds
          (tells_round policy polls c start p)).bind
        rintro ⟨next, q⟩ first t₂ hle₂ ⟨hfirst, hround, -⟩
        cases next with
        | stop ending =>
            have hboth : IsTimed _ (t₂ - t) := (hlooked.append hfirst).mono (by omega)
            apply spans_pure
            exact ⟨by simpa using hboth, fun htimeout => absurd htimeout hround.ne_timeout⟩
        | again =>
            apply (ih q t₂).mono
            rintro ⟨ending, r⟩ rest t₃ hle₃ ⟨hrest, htimeout⟩
            have hall : IsTimed _ (t₃ - t) :=
              ((hlooked.append hfirst).append hrest).mono (by omega)
            exact ⟨by simpa using hall, htimeout⟩

/-- The times of a run: those of all attempts and pauses go by within that of the worker. -/
structure IsTimely (c : Settings 𝕜) (a : Account σ) : Prop where
  /-- Every time that goes out is a number of milliseconds, and not below zero. -/
  times_nonneg : ∀ r ∈ a.records, r.measurement = timeTaken → ∃ ms, r.figure = .long ms ∧ 0 ≤ ms
  /-- All times together but that of the worker are no more than that. -/
  otherTimes_le : otherTimes a.records ≤ total a.records opType timeTaken
  /-- The latencies of a kind are no less than the times that go out of it. -/
  total_le_latencies : ∀ kind : Kind,
    total a.records kind.name timeTaken ≤ (a.latencies.histogram kind.name).sum
  durationMs_le : a.ending = .timeout → c.durationMs ≤ total a.records opType timeTaken

variable {policy : Policy τ ρ} {limit : Nat} {key value : String} {world : σ} {random : ρ}
  {a : Account σ}

theorem spans_told (h : Paces c.Sleeps past 0) (policy : Policy τ ρ) (limit : Nat) (start : Int) :
    Spans past start (do
      let (ending, p) ← loop policy limit c start limit (Progress.start policy)
      let time ← Course.elapsed start
      Course.note (.emitted (.long opType opCount p.operations))
      Course.note (.emitted (.long opType timeTaken time))
      Course.note (.ended p.operations time ending)
      return ending : Course σ ρ Ending) fun ending events _ =>
      ∃ told operations ms, events = told ++ [.emitted (.long opType opCount (operations : Nat)),
          .emitted (.long opType timeTaken ms), .ended operations ms ending] ∧
        0 ≤ ms ∧ IsTimed told ms ∧ (ending = .timeout → c.durationMs ≤ ms) := by
  apply (spans_loop h policy limit start limit (Progress.start policy) start).bind
  rintro ⟨ending, p⟩ told t hle ⟨htold, htimeout⟩
  apply (spans_elapsed h start t).bind
  rintro ms _ t' hle' ⟨rfl, rfl⟩
  apply (spans_note _).bind
  rintro _ _ t' - ⟨rfl, rfl⟩
  apply (spans_note _).bind
  rintro _ _ t' - ⟨rfl, rfl⟩
  apply (spans_note _).bind
  rintro _ _ t' - ⟨rfl, rfl⟩
  apply spans_pure
  refine ⟨told, p.operations, Clock.elapsed start t', by simp, Clock.elapsed_nonneg _ _, ?_, ?_⟩
  · exact htold.mono (Int.le_trans (by omega) (Int.le_max_right 0 _))
  · exact fun htime => Int.le_trans (htimeout htime) (Clock.elapsed_mono hle')

/-- The statistics of a worker on itself. -/
def closing (operations : Nat) (ms : Int) : List Record :=
  [.long opType opCount operations, .long opType timeTaken ms]

theorem total_closing_name (operations : Nat) (ms : Int) (kind : Kind) (measurement : String) :
    total (closing operations ms) kind.name measurement = 0 := by
  apply total_eq_zero
  simp [closing, long, name_ne_opType]

theorem total_closing (operations : Nat) (ms : Int) :
    total (closing operations ms) opType timeTaken = ms := by
  have hcount : opCount ≠ timeTaken := by decide
  simp [closing, total, amount_long, hcount]

theorem nonneg_of_mem_closing {operations : Nat} {ms : Int} (hms : 0 ≤ ms) {r : Record}
    (hr : r ∈ closing operations ms) : 0 ≤ r.figure.amount := by
  rcases List.mem_pair.mp hr with rfl | rfl
  · exact Int.natCast_nonneg operations
  · exact hms

theorem exists_events_eq (hclock : NeverBack c.Sleeps world)
    (h : accountWith policy limit c key value world random = some a) :
    ∃ told operations ms, a.events = .began key value ::
        (told ++ [.emitted (.long opType opCount (operations : Nat)),
          .emitted (.long opType timeTaken ms), .ended operations ms a.ending]) ∧
      0 ≤ ms ∧ IsTimed told ms ∧ (a.ending = .timeout → c.durationMs ≤ ms) := by
  obtain ⟨⟨ending, s⟩, hrun, rfl⟩ := Option.map_eq_some_iff.mp h
  obtain ⟨events, hjournal, told, operations, ms, rfl, hfacts⟩ :=
    Spans.exists_of_first (spans_told paces_isOver policy limit) hclock.isOver hrun
  refine ⟨told, operations, ms, ?_, hfacts⟩
  rw [List.append_nil] at hjournal
  simp only [hjournal, List.reverse_reverse]

theorem isAttributed_of_run (h : accountWith policy limit c key value world random = some a) :
    ∀ r ∈ a.records, r.IsAttributed := by
  have hkept : IsKept (fun _ => True) a.events := isKept_of_run (fun _ _ _ _ _ _ => trivial) h
  obtain ⟨-, ms, hrecords⟩ := isRounds_of_run h
  rw [hrecords]
  refine List.forall_mem_append.mpr ⟨?_, ?_⟩
  · intro r hr
    obtain ⟨turn, hturn, hr⟩ := List.mem_flatMap.mp hr
    obtain ⟨kind, hname, -⟩ := (hkept.sound turn hturn).exists_name hr
    exact Or.inr ⟨kind, hname⟩
  · simp only [List.forall_mem_cons]
    exact ⟨Or.inl rfl, Or.inl rfl, by simp⟩

theorem isTimely_of_run (hclock : NeverBack c.Sleeps world)
    (h : accountWith policy limit c key value world random = some a) : IsTimely c a := by
  obtain ⟨told, operations, ms, hevents, hms, htold, htimeout⟩ := exists_events_eq hclock h
  have hrecords : a.records = told.filterMap record? ++ closing operations ms := by
    rw [Account.records, hevents, List.filterMap_cons_none rfl, List.filterMap_append]
    rfl
  have hlatencies : ∀ kind : Kind, (a.latencies.histogram kind.name).sum =
      (told.filterMap (latency? kind)).sum := by
    intro kind
    rw [Account.latencies, Latencies.sum_ofEvents, hevents, List.filterMap_cons_none rfl,
      List.filterMap_append, List.sum_append]
    exact Int.add_zero _
  have hworker : total a.records opType timeTaken = ms := by
    have htotal : total (told.filterMap record?) opType timeTaken = 0 := by
      apply total_eq_zero
      intro r hr heq
      obtain ⟨kind, hkind⟩ := htold.named r hr
      exact absurd (heq.symm.trans hkind) (name_ne_opType kind)
    rw [hrecords, total_append, htotal, total_closing, Int.zero_add]
  have hkind : ∀ kind : Kind, total a.records kind.name timeTaken =
      total (told.filterMap record?) kind.name timeTaken := by
    intro kind
    rw [hrecords, total_append, total_closing_name, Int.add_zero]
  constructor
  · intro r hr htime
    obtain ⟨opType, measurement, n, -, rfl⟩ := (isCount_of_run h r hr).exists_eq
    refine ⟨n, rfl, ?_⟩
    rw [hrecords] at hr
    rcases List.mem_append.mp hr with hr | hr
    · exact htold.nonneg _ hr htime
    · exact nonneg_of_mem_closing hms hr
  · rw [hworker, otherTimes_eq_spent, spent, List.map_congr_left fun kind _ => hkind kind]
    · exact htold.spent_le
    · exact isAttributed_of_run h
  · intro kind
    rw [hkind, hlatencies]
    exact htold.total_le kind
  · rw [hworker]
    exact htimeout

end Worker

namespace Shared

open Surroundings

theorem clock_of_leads {sleeps : Int → Prop} {w w' : Shared} (h : Leads sleeps w w') :
    ∃ k, ∀ n, w'.clock n = w.clock (n + k) := by
  induction h with
  | refl w => exact ⟨0, fun _ => rfl⟩
  | now h ih =>
      obtain ⟨k, hk⟩ := ih
      exact ⟨k + 1, hk⟩
  | call hcall h ih =>
      obtain ⟨⟨reply, memory⟩, -, hcall⟩ := Option.bind_eq_some_iff.mp hcall
      obtain ⟨⟨answer, memory⟩, -, heq⟩ := Option.map_eq_some_iff.mp hcall
      obtain ⟨-, rfl⟩ := Prod.mk.inj heq
      exact ih
  | sleep hms h ih => exact ih

theorem neverBack {sleeps : Int → Prop} {w : Shared} (h : ∀ i j, i ≤ j → w.clock i ≤ w.clock j) :
    NeverBack sleeps w := by
  intro v v' hv hv'
  obtain ⟨k, hk⟩ := clock_of_leads hv
  obtain ⟨l, hl⟩ := clock_of_leads hv'
  have hearlier : (Surroundings.now v).1 = w.clock k :=
    (hk 0).trans (congrArg w.clock (Nat.zero_add k))
  have hlater : (Surroundings.now v').1 = w.clock (0 + l + 1 + k) := (hl 0).trans (hk _)
  rw [hearlier, hlater]
  exact h _ _ (by omega)

end Shared

namespace Job

open Record Surroundings
open Worker (IsTimely Run isAttributed_of_run isTimely_of_run)

variable {results : List Result} {runs : List Run}

theorem isAttributed_of_merge {merged : Reducer}
    (h : merged.IsMergeOf (runs.flatMap Run.records)) :
    ∀ r ∈ merged.outputs, r.IsAttributed := by
  intro r hr
  obtain ⟨s, hs, hkey⟩ := List.mem_map.mp (h.mem_keys_iff.mp (List.mem_map_of_mem hr))
  obtain ⟨opType, measurement, n, hstar, rfl⟩ :=
    (h.isCount isCount_of_mem (h.mem_outputs_iff.mp hr)).1.exists_eq
  obtain ⟨run, -, hrun⟩ := List.mem_flatMap.mp hs
  have hsame := ((isCount_of_mem s hs).key_eq_iff hstar).mp hkey
  have hs : s.IsAttributed := isAttributed_of_run run.account_eq s hrun
  rw [IsAttributed, hsame.1] at hs
  exact hs

theorem spent_le_total (h : ∀ run ∈ runs, IsTimely run.settings run.account) :
    spent (runs.flatMap Run.records) ≤
      total (runs.flatMap Run.records) Worker.opType timeTaken := by
  induction runs with
  | nil => exact Int.le_refl 0
  | cons run runs ih =>
      obtain ⟨hrun, hruns⟩ := List.forall_mem_cons.mp h
      rw [List.flatMap_cons, spent_append, total_append]
      apply Int.add_le_add
      · have hspent := hrun.otherTimes_le
        rwa [otherTimes_eq_spent (isAttributed_of_run run.account_eq)] at hspent
      · exact ih hruns

/-- With a clock that never goes back, the times of every run are those of its attempts and
pauses, one after the other, so that also in the merged statistics of any number of workers they
are no more than the time of the workers. -/
theorem times_accounted (runs : List Run)
    (hclock : ∀ run ∈ runs, NeverBack run.settings.Sleeps run.world) :
    (∀ run ∈ runs, IsTimely run.settings run.account) ∧
      ∀ results, List.Forall₂ Result.IsOf results runs →
        ∃ merged, (∀ order : List Result, order.Perm results → merge order = .ok merged) ∧
          otherTimes merged.outputs ≤ total merged.outputs Worker.opType timeTaken := by
  have htimely : ∀ run ∈ runs, IsTimely run.settings run.account :=
    fun run hrun => isTimely_of_run (hclock run hrun) run.account_eq
  refine ⟨htimely, fun results hresults => ?_⟩
  obtain ⟨merged, hmerge, hmerged⟩ := exists_merge_perm hresults
  have htotal : ∀ opType, total merged.outputs opType timeTaken =
      total (runs.flatMap Run.records) opType timeTaken :=
    fun opType => hmerged.total_outputs isCount_of_mem opType timeTaken
  refine ⟨merged, hmerge, ?_⟩
  calc otherTimes merged.outputs
      _ = spent merged.outputs := otherTimes_eq_spent (isAttributed_of_merge hmerged)
      _ = spent (runs.flatMap Run.records) := by simp only [spent, htotal]
      _ ≤ total (runs.flatMap Run.records) Worker.opType timeTaken := spent_le_total htimely
      _ = total merged.outputs Worker.opType timeTaken := (htotal _).symm

/-- Two workers that are stopped when the time is up. -/
theorem times_accounted_pair :
    ∃ a pairs merged,
      Worker.account 5 Worker.busy "k" "v" (⟨Memory.fresh 0, [], fun n => 100 * n⟩ : Shared)
        (⟨⟩ : Zeros) = some a ∧ a.ending = .timeout ∧ IsTimely Worker.busy a ∧
      Job.pairs a.records = .ok pairs ∧
      merge [⟨0, a.ending, pairs, []⟩, ⟨1, a.ending, pairs, []⟩] = .ok merged ∧
      otherTimes merged.outputs ≤ total merged.outputs Worker.opType timeTaken := by
  have hrun :
      (Worker.account 5 Worker.busy "k" "v" (⟨Memory.fresh 0, [], fun n => 100 * n⟩ : Shared)
      (⟨⟩ : Zeros)).bind (fun a =>
        (Job.pairs a.records).toOption.map fun _ => (a.ending, otherTimes a.records)) =
          some (.timeout, 200) := by
    decide +kernel
  obtain ⟨a, ha, hrun⟩ := Option.bind_eq_some_iff.mp hrun
  obtain ⟨pairs, hpairs, hfacts⟩ := Option.map_eq_some_iff.mp hrun
  replace hpairs := Outcome.eq_ok_of_toOption hpairs
  let run : Run := ⟨_, _, _, _, _, _, _, a, ha⟩
  have hclock : NeverBack run.settings.Sleeps run.world := by
    apply Shared.neverBack
    intro m n hle
    change (100 * m : Int) ≤ 100 * n
    omega
  have hresults : List.Forall₂ Result.IsOf [⟨0, a.ending, pairs, []⟩, ⟨1, a.ending, pairs, []⟩]
      [run, run] :=
    .cons ⟨rfl, hpairs⟩ (.cons ⟨rfl, hpairs⟩ .nil)
  obtain ⟨htimely, hmerged⟩ := times_accounted [run, run] (by simpa using hclock)
  obtain ⟨merged, hmerge, hle⟩ := hmerged _ hresults
  refine ⟨a, pairs, merged, ha, (Prod.mk.inj hfacts).1, ?_, hpairs, hmerge _ (.refl _), hle⟩
  exact htimely run List.mem_cons_self

end Job

end StorageLoad
