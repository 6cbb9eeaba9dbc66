import Mathlib.Algebra.Ring.Int.Defs
import StorageLoad.Proofs.Invariant
import StorageLoad.Proofs.Latency
import StorageLoad.Proofs.Outcome
import StorageLoad.Proofs.Reducer
import StorageLoad.Proofs.Selector
import StorageLoad.Proofs.Worker

/-!
Every attempt is told of exactly once.  Of the attempts of a kind, each either raises or goes out
as one success or one failure, and counts once among the latencies; so the number of operations of
any number of workers is what their merged statistics say (`attempts_conserved`).  The time of an
attempt is the last that goes out of it, and it is missing if something before it has no text.
-/

namespace StorageLoad

open Record Operation

namespace Turn

/-- A selection of an operation of a kind. -/
def selects (kind : Kind) : Turn → Bool
  | selected (.ok (some k)) => k = kind
  | _ => false

/-- An attempt of a kind that returned. -/
def returns (kind : Kind) : Turn → Bool
  | ran k (.ok _) => k = kind
  | _ => false

/-- An attempt of a kind that raised. -/
def raises (kind : Kind) : Turn → Bool
  | ran k (.error _) => k = kind
  | _ => false

def hasRaised : Turn → Bool
  | ran _ (.error _) => true
  | _ => false

/-- An attempt of a kind that returned a statistic without a text. -/
def isCut (kind : Kind) : Turn → Bool
  | ran k (.ok outputs) => k = kind ∧ ¬ Worker.hasReturned (.ok outputs)
  | _ => false

/-- What is selected and run is of some sort, and what returns is a report of it. -/
inductive IsSound (sort : Kind → Prop) : Turn → Prop
  | looked (elapsed : Int) : IsSound sort (.looked elapsed)
  | unselected (fault : Fault) : IsSound sort (.selected (.error fault))
  | exhausted : IsSound sort (.selected (.ok none))
  | selected (kind : Kind) (h : sort kind) : IsSound sort (.selected (.ok (some kind)))
  | raised (kind : Kind) (h : sort kind) (fault : Fault) : IsSound sort (.ran kind (.error fault))
  | returned (kind : Kind) (h : sort kind) (outputs : List Record)
      (hreport : IsReport kind outputs) :
      IsSound sort (.ran kind (.ok outputs))
  | restless (fault : Fault) : IsSound sort (.paused (.error fault))
  | paused (outputs : List Record) (hreport : IsReport .sleep outputs) :
      IsSound sort (.paused (.ok outputs))

end Turn

namespace Record

variable {r : Record} {records : List Record} {opType measurement : String}

/-- The successes and failures of all kinds that can be selected. -/
def answered (records : List Record) : Int :=
  (Kind.selectable.map fun k =>
    total records k.name Measurement.successes + total records k.name Measurement.failures).sum

theorem answered_append (records rest : List Record) :
    answered (records ++ rest) = answered records + answered rest := by
  simp only [answered, total_append]
  rw [← List.sum_map_add]
  congr 1
  apply List.map_congr_left
  intro k _
  omega

/-- Whether a statistic is the time that an attempt of a kind took. -/
def times (kind : Kind) (r : Record) : Bool :=
  r.opType = kind.name ∧ r.measurement = Measurement.timeTaken

end Record

namespace Operation

open Worker Measurement

variable {kind : Kind} {outputs rest : List Record} {r : Record}

theorem isOk_text_one (opType measurement : String) : (long opType measurement 1).text.isOk :=
  isOk_text_long (Value.isOversized_of_le_two_pow (by decide) (Nat.le_refl (2 ^ 0)))
    opType measurement

theorem sentOf_cons (h : r.text.isOk) : sentOf (.ok (r :: rest)) = r :: sentOf (.ok rest) := by
  simp only [sentOf, List.takeWhile_cons, h, if_true]

theorem mem_of_mem_sentOf (h : r ∈ sentOf (.ok outputs)) : r ∈ outputs :=
  (List.takeWhile_sublist _).subset h

theorem total_sentOf_one (opType measurement o m : String) (rest : List Record) :
    total (sentOf (.ok (long opType measurement 1 :: rest))) o m =
      (if opType = o ∧ measurement = m then 1 else 0) + total (sentOf (.ok rest)) o m := by
  rw [sentOf_cons (isOk_text_one opType measurement), total_cons, amount_long]

/-- A statistic that does not say how an attempt went. -/
def IsAside (r : Record) : Prop :=
  r.measurement ∉ [successes, failures, notFound]

theorem isAside_took (kind : Kind) (ms : Int) : IsAside (took kind ms) := by
  change timeTaken ∉ [successes, failures, notFound]
  decide

theorem IsDetail.isAside (h : IsDetail kind r) : IsAside r := by
  obtain ⟨measurement, n, rfl, hmeasurement⟩ := h
  intro hmem
  apply hmeasurement
  simp only [outcomes, List.mem_cons] at hmem ⊢
  tauto

theorem total_aside (h : ∀ r ∈ rest, IsAside r) (opType : String) :
    total (sentOf (.ok rest)) opType successes = 0 ∧
    total (sentOf (.ok rest)) opType failures = 0 ∧
      total (sentOf (.ok rest)) opType notFound = 0 := by
  refine ⟨?_, ?_, ?_⟩
  all_goals
    apply total_eq_zero
    intro r hr _ heq
    apply h r (mem_of_mem_sentOf hr)
    simp [heq]

theorem IsReport.total_sent (h : IsReport kind outputs) :
    total (sentOf (.ok outputs)) kind.name successes +
        total (sentOf (.ok outputs)) kind.name failures = 1 ∧
      total (sentOf (.ok outputs)) kind.name notFound ≤
        total (sentOf (.ok outputs)) kind.name failures := by
  have hne : successes ≠ failures ∧ successes ≠ notFound ∧ failures ≠ notFound := by decide
  cases h with
  | succeeded details hdetails ms =>
      have haside : ∀ r ∈ details ++ [took kind ms], IsAside r := by
        intro r hr
        rcases List.mem_append.mp hr with hr | hr
        · exact (hdetails r hr).isAside
        · rw [List.mem_singleton.mp hr]
          exact isAside_took kind ms
      simp [Operation.succeeded, total_sentOf_one, total_aside haside, hne]
  | missed ms =>
      have haside : ∀ r ∈ [took kind ms], IsAside r := by
        simpa using isAside_took kind ms
      simp [Operation.missed, total_sentOf_one, total_aside haside, hne, hne.1.symm]
  | absent ms =>
      have haside : ∀ r ∈ [took kind ms], IsAside r := by
        simpa using isAside_took kind ms
      simp [Operation.missed, Operation.absent, total_sentOf_one, total_aside haside,
        hne, hne.1.symm, hne.2.1.symm, hne.2.2.symm]

theorem IsReport.isCount (h : IsReport kind outputs) : ∀ r ∈ outputs, r.opType = kind.name ∧
    r.IsCount := by
  have hstar : '*' ∉ kind.name.toList := by cases kind <;> decide
  have hlong : ∀ measurement n, (long kind.name measurement n).opType = kind.name ∧
      (long kind.name measurement n).IsCount := fun _ _ => ⟨rfl, rfl, hstar⟩
  cases h with
  | succeeded details hdetails ms =>
      simp only [List.forall_mem_cons, List.forall_mem_append]
      refine ⟨hlong _ _, ?_, hlong _ _, by simp⟩
      intro r hr
      obtain ⟨measurement, n, rfl, -⟩ := hdetails r hr
      exact hlong measurement n
  | missed ms =>
      simp only [List.forall_mem_cons]
      exact ⟨hlong _ _, hlong _ _, by simp⟩
  | absent ms =>
      simp only [List.forall_mem_cons]
      exact ⟨hlong _ _, hlong _ _, hlong _ _, by simp⟩

theorem IsDetail.measurement_ne (h : IsDetail kind r) : r.measurement ≠ timeTaken := by
  obtain ⟨measurement, n, rfl, hmeasurement⟩ := h
  rintro rfl
  exact hmeasurement (by decide)

theorem IsReport.exists_eq (h : IsReport kind outputs) :
    ∃ before ms, outputs = before ++ [took kind ms] ∧
      ∀ r ∈ before, r.measurement ≠ timeTaken := by
  cases h with
  | succeeded details hdetails ms =>
      have hsucceeded : successes ≠ timeTaken := by decide
      refine ⟨Operation.succeeded kind :: details, ms, rfl,
        List.forall_mem_cons.mpr ⟨hsucceeded, ?_⟩⟩
      exact fun r hr => (hdetails r hr).measurement_ne
  | missed ms =>
      refine ⟨[Operation.missed kind], ms, rfl, ?_⟩
      simpa [Operation.missed, long] using (by decide : failures ≠ timeTaken)
  | absent ms =>
      refine ⟨[Operation.missed kind, Operation.absent kind], ms, rfl, ?_⟩
      simpa [Operation.missed, Operation.absent, long] using
        (by decide : failures ≠ timeTaken ∧ notFound ≠ timeTaken)

theorem sentOf_eq_self_iff : sentOf (.ok outputs) = outputs ↔ hasReturned (.ok outputs) := by
  rw [sentOf, hasReturned, List.takeWhile_eq_self_iff, List.all_eq_true]

/-- Either everything goes out, or the time does not. -/
theorem IsReport.sent_cases (h : IsReport kind outputs) :
    hasReturned (.ok outputs) ∧ sentOf (.ok outputs) = outputs ∨
      ¬ hasReturned (.ok outputs) ∧ ∀ r ∈ sentOf (.ok outputs), r.measurement ≠ timeTaken := by
  by_cases hreturned : hasReturned (.ok outputs)
  · exact Or.inl ⟨hreturned, sentOf_eq_self_iff.mpr hreturned⟩
  · obtain ⟨before, ms, heq, hbefore⟩ := h.exists_eq
    have hprefix : sentOf (.ok outputs) <+: before ++ [took kind ms] :=
      heq ▸ List.takeWhile_prefix _
    rcases List.prefix_concat_iff.mp hprefix with hall | hpart
    · exact absurd (sentOf_eq_self_iff.mp (hall.trans heq.symm)) hreturned
    · exact Or.inr ⟨hreturned, fun r hr => hbefore r (hpart.subset hr)⟩

theorem countP_times_eq_zero (h : ∀ r ∈ outputs, r.measurement ≠ timeTaken) :
    outputs.countP (times kind) = 0 :=
  List.countP_eq_zero.mpr fun r hr htimes => h r hr (of_decide_eq_true htimes).2

theorem IsReport.countP_times (h : IsReport kind outputs) :
    (sentOf (.ok outputs)).countP (times kind) = if hasReturned (.ok outputs) then 1 else 0 := by
  rcases h.sent_cases with ⟨hreturned, hall⟩ | ⟨hcut, hnone⟩
  · obtain ⟨before, ms, rfl, hbefore⟩ := h.exists_eq
    have htook : times kind (took kind ms) := decide_eq_true ⟨rfl, rfl⟩
    rw [if_pos hreturned, hall, List.countP_append, countP_times_eq_zero hbefore,
      List.countP_singleton, if_pos htook]
  · rw [if_neg hcut, countP_times_eq_zero hnone]

theorem IsReport.ne_name (h : IsReport kind outputs) {other : Kind} (hne : other ≠ kind) :
    ∀ r ∈ outputs, r.opType ≠ other.name := by
  intro r hr heq
  rw [(h.isCount r hr).1] at heq
  exact hne (Kind.name_injective heq).symm

theorem IsReport.total_other (h : IsReport kind outputs) {other : Kind} (hne : other ≠ kind)
    (measurement : String) : total (sentOf (.ok outputs)) other.name measurement = 0 :=
  total_eq_zero fun _ hr heq => absurd heq (h.ne_name hne _ (mem_of_mem_sentOf hr))

theorem IsReport.countP_times_other (h : IsReport kind outputs) {other : Kind}
    (hne : other ≠ kind) :
    (sentOf (.ok outputs)).countP (times other) = 0 := by
  apply List.countP_eq_zero.mpr
  intro r hr htimes
  exact h.ne_name hne r (mem_of_mem_sentOf hr) (of_decide_eq_true htimes).1

end Operation

namespace Turn

open Worker Measurement

variable {sort : Kind → Prop} {turn : Turn} {turns : List Turn} {kind : Kind}

theorem IsSound.total_sent (h : IsSound sort turn) (hkind : kind ≠ .sleep) :
    total turn.sent kind.name successes + total turn.sent kind.name failures =
        (if turn.returns kind then 1 else 0 : Nat) ∧
      total turn.sent kind.name notFound ≤ total turn.sent kind.name failures := by
  cases h with
  | returned k hk outputs hreport =>
      simp only [sent, returns, decide_eq_true_eq]
      split
      · rename_i heq
        rw [heq] at hreport
        exact hreport.total_sent
      · rename_i hne
        simp [hreport.total_other (Ne.symm hne)]
  | paused outputs hreport => simp [sent, returns, hreport.total_other hkind]
  | _ => exact ⟨rfl, Int.le_refl _⟩

theorem IsSound.countP_times (h : IsSound sort turn) (hkind : kind ≠ .sleep) :
    turn.sent.countP (times kind) + (if turn.isCut kind then 1 else 0) =
      if turn.returns kind then 1 else 0 := by
  cases h with
  | returned k hk outputs hreport =>
      by_cases hsame : k = kind
      · subst hsame
        simp only [sent, isCut, returns, hreport.countP_times]
        by_cases hreturned : hasReturned (.ok outputs)
        · simp [hreturned]
        · simp [hreturned]
      · simp [sent, isCut, returns, hreport.countP_times_other (Ne.symm hsame), hsame]
  | paused outputs hreport => simp [sent, isCut, returns, hreport.countP_times_other hkind]
  | _ => rfl

theorem IsSound.exists_name (h : IsSound sort turn) {r : Record} (hr : r ∈ turn.sent) :
    ∃ kind : Kind, r.opType = kind.name ∧ r.IsCount := by
  cases h with
  | returned k hk outputs hreport => exact ⟨k, hreport.isCount r (mem_of_mem_sentOf hr)⟩
  | paused outputs hreport => exact ⟨.sleep, hreport.isCount r (mem_of_mem_sentOf hr)⟩
  | _ => cases hr

theorem total_sent_turns (h : ∀ turn ∈ turns, IsSound sort turn) (hkind : kind ≠ .sleep) :
    total (turns.flatMap sent) kind.name successes +
      total (turns.flatMap sent) kind.name failures =
        turns.countP (returns kind) ∧
      total (turns.flatMap sent) kind.name notFound ≤
        total (turns.flatMap sent) kind.name failures := by
  induction turns with
  | nil => exact ⟨rfl, Int.le_refl _⟩
  | cons turn turns ih =>
      obtain ⟨hturn, hturns⟩ := List.forall_mem_cons.mp h
      obtain ⟨hfirst, hnotFound⟩ := hturn.total_sent hkind
      obtain ⟨hrest, hnotFound'⟩ := ih hturns
      rw [List.flatMap_cons, total_append, total_append, total_append, List.countP_cons]
      omega

theorem countP_times_turns (h : ∀ turn ∈ turns, IsSound sort turn) (hkind : kind ≠ .sleep) :
    (turns.flatMap sent).countP (times kind) + turns.countP (isCut kind) =
      turns.countP (returns kind) := by
  induction turns with
  | nil => rfl
  | cons turn turns ih =>
      obtain ⟨hturn, hturns⟩ := List.forall_mem_cons.mp h
      have hfirst := hturn.countP_times hkind
      have hrest := ih hturns
      rw [List.flatMap_cons, List.countP_append, List.countP_cons, List.countP_cons]
      omega

end Turn

namespace Worker

open Turn

variable {𝕜 : Type} {c : Settings 𝕜} {turns : List Turn} {kind : Kind}

theorem countP_attempt (k : Kind) (answer : Outcome (List Record)) {rest : List Turn}
    (h : rest.countP (selects kind) = rest.countP (returns kind) + rest.countP (raises kind)) :
    (.selected (.ok (some k)) :: .ran k answer :: rest).countP (selects kind) =
      (.selected (.ok (some k)) :: .ran k answer :: rest).countP (returns kind) +
        (.selected (.ok (some k)) :: .ran k answer :: rest).countP (raises kind) := by
  cases answer with
  | error fault =>
      simp only [List.countP_cons, selects, returns, raises, h]
      simp [Nat.add_assoc]
  | ok outputs =>
      simp only [List.countP_cons, selects, returns, raises, h]
      simp [Nat.add_right_comm]

theorem IsRound.countP_selects {next : Next} (h : IsRound c turns next) (kind : Kind) :
    turns.countP (selects kind) = turns.countP (returns kind) + turns.countP (raises kind) := by
  cases h with
  | unselected fault => rfl
  | exhausted => rfl
  | failed k answer => exact countP_attempt k answer rfl
  | unpaused k answer => exact countP_attempt k answer rfl
  | restless k answer => exact countP_attempt k answer rfl
  | paused k answer => exact countP_attempt k answer rfl

theorem IsRounds.countP_selects {ending : Ending} (h : IsRounds c turns ending) (kind : Kind) :
    turns.countP (selects kind) = turns.countP (returns kind) + turns.countP (raises kind) := by
  induction h with
  | timeout elapsed => rfl
  | stop elapsed h turns ending hround => exact hround.countP_selects kind
  | again elapsed h turns rest ending hround hrest ih =>
      have hsame := hround.countP_selects kind
      change (turns ++ rest).countP (selects kind) =
        (turns ++ rest).countP (returns kind) + (turns ++ rest).countP (raises kind)
      rw [List.countP_append, List.countP_append, List.countP_append]
      omega

section Keeping

/-- The turns among the events are sound, and an operation finishes if and only if it returns. -/
structure IsKept (sort : Kind → Prop) (events : List Event) : Prop where
  sound : ∀ turn ∈ events.filterMap Event.turn?, turn.IsSound sort
  finished : ∀ kind ≠ .sleep, events.countP (Event.finishes kind) =
    (events.filterMap Event.turn?).countP (returns kind)

variable {sort : Kind → Prop} {events rest : List Event}

theorem IsKept.append (h : IsKept sort events) (h' : IsKept sort rest) :
    IsKept sort (events ++ rest) where
  sound := by
    rw [List.filterMap_append]
    exact List.forall_mem_append.mpr ⟨h.sound, h'.sound⟩
  finished := by
    intro kind hkind
    rw [List.filterMap_append, List.countP_append, List.countP_append, h.finished kind hkind,
      h'.finished kind hkind]

/-- An event that is no turn and ends no operation. -/
def IsNeutral (e : Event) : Prop :=
  e.turn? = none ∧ ∀ kind, e.finishes kind = false

theorem isKept_of_isNeutral (h : ∀ e ∈ events, IsNeutral e) : IsKept sort events := by
  have hturns : events.filterMap Event.turn? = [] :=
    List.filterMap_eq_nil_iff.mpr fun e he => (h e he).1
  constructor
  · simp [hturns]
  · intro kind _
    rw [hturns, List.countP_nil, List.countP_eq_zero]
    intro e he
    simp [(h e he).2 kind]

theorem isNeutral_of_isOfOperation {e : Event} (h : e.IsOfOperation) : IsNeutral e := by
  cases e with
  | asked request => exact ⟨rfl, fun _ => rfl⟩
  | slept ms => exact ⟨rfl, fun _ => rfl⟩
  | settled path replicas ms => exact ⟨rfl, fun _ => rfl⟩
  | _ => exact h.elim

theorem isKept_turned {turn : Turn} (h : turn.IsSound sort)
    (hfinished : ∀ kind ≠ .sleep,
      rest.countP (Event.finishes kind) = if turn.returns kind then 1 else 0)
    (hnone : rest.filterMap Event.turn? = []) : IsKept sort (.turned turn :: rest) := by
  have hturns : (Event.turned turn :: rest).filterMap Event.turn? = [turn] := by
    rw [List.filterMap_cons_some (f := Event.turn?) rfl, hnone]
  constructor
  · rw [hturns]
    exact List.forall_mem_singleton.mpr h
  · intro kind hkind
    rw [hturns, List.countP_cons_of_neg (by exact Bool.false_ne_true), hfinished kind hkind,
      List.countP_singleton]

/-- If the course ends, what it adds is kept in step. -/
def Keeps {σ ρ α : Type} (sort : Kind → Prop) (course : Course σ ρ α) : Prop :=
  course.Adds fun _ events => IsKept sort events

variable {σ ρ τ α β : Type}

theorem Keeps.after {course : Course σ ρ α} (h : Keeps sort course) (hkept : IsKept sort events) :
    course.Adds fun _ rest => IsKept sort (events ++ rest) :=
  h.mono fun _ _ hrest => hkept.append hrest

theorem Keeps.bind {course : Course σ ρ α} {next : α → Course σ ρ β} (h : Keeps sort course)
    (hnext : ∀ a, Keeps sort (next a)) : Keeps sort (course >>= next) :=
  Course.Adds.bind h fun a _ hfirst => (hnext a).after hfirst

theorem keeps_of_addsOnly {course : Course σ ρ α} (h : course.AddsOnly IsNeutral) :
    Keeps sort course :=
  h.mono fun _ _ hevents => isKept_of_isNeutral hevents

theorem Keeps.ensures {course : Course σ ρ α} (h : Keeps sort course) :
    course.Ensures (fun s => IsKept sort s.journal.reverse) fun _ => True :=
  Course.Adds.ensures h fun _ _ _ hbefore hevents => hbefore.append hevents

theorem keeps_pure (a : α) : Keeps sort (pure a : Course σ ρ α) :=
  keeps_of_addsOnly (Course.addsOnly_pure a)

theorem keeps_note {e : Event} (h : IsNeutral e) : Keeps sort (Course.note e : Course σ ρ Unit) :=
  keeps_of_addsOnly (Course.addsOnly_note h)

theorem keeps_emitAll (outputs : List Record) :
    Keeps sort (outputs.forM emit : Action σ ρ Unit).run := by
  induction outputs with
  | nil => exact keeps_pure _
  | cons output outputs ih =>
      rw [run_emitAll_cons]
      cases output.text with
      | error fault => exact keeps_pure _
      | ok text => exact (keeps_note ⟨rfl, fun _ => rfl⟩).bind fun _ => ih

variable [RandomSource ρ] [Surroundings σ]

theorem adds_run (polls : Nat) (c : Settings 𝕜) (kind : Kind) :
    Course.Adds (Operation.run polls c kind : Action σ ρ (List Record)).run fun answer events =>
      (∀ e ∈ events, IsNeutral e) ∧ ∀ outputs, answer = .ok outputs → IsReport kind outputs := by
  intro s answer s' hs
  obtain ⟨events, hjournal, hown⟩ := Operation.addsOnly_run polls c kind s answer s' hs
  refine ⟨events, hjournal, fun e he => isNeutral_of_isOfOperation (hown e he), ?_⟩
  rintro outputs rfl
  exact returns_run polls c kind s outputs s' hs

theorem keeps_attempt (polls : Nat) (c : Settings 𝕜) (turn : Outcome (List Record) → Turn)
    (number : Nat) (kind : Kind)
    (hsound : ∀ answer, (∀ outputs, answer = .ok outputs → IsReport kind outputs) →
      (turn answer).IsSound sort)
    (hreturns : ∀ answer, ∀ k ≠ .sleep,
      (turn answer).returns k = (answer.isOk && decide (kind = k))) :
    Keeps sort (attempt polls c turn number kind : Action σ ρ Unit).run := by
  rw [run_attempt]
  refine (keeps_note ⟨rfl, fun _ => rfl⟩).bind fun _ => ?_
  refine (keeps_of_addsOnly (Course.adds_now.addsOnly fun _ _ h => h)).bind fun start => ?_
  apply Course.Adds.bind (adds_run polls c kind)
  rintro answer first ⟨hfirst, hreport⟩
  refine Keeps.after ?_ (isKept_of_isNeutral hfirst)
  apply Course.Adds.bind (Course.adds_note _)
  rintro ⟨⟩ _ rfl
  have hturn := hsound answer hreport
  cases answer with
  | error fault =>
      apply Keeps.after (keeps_pure _)
      apply isKept_turned hturn
      · intro k hk
        rw [hreturns _ k hk]
        rfl
      · rfl
  | ok outputs =>
      apply Course.Adds.bind (Course.adds_elapsed start)
      rintro time _ rfl
      apply Course.Adds.bind (Course.adds_note _)
      rintro ⟨⟩ _ rfl
      apply Course.Adds.mono (keeps_emitAll outputs)
      intro _ sent hsent
      have hpair : IsKept sort [.turned (turn (.ok outputs)), .finished number kind time] := by
        apply isKept_turned hturn
        · intro k hk
          rw [hreturns _ k hk, List.countP_singleton]
          rfl
        · rfl
      exact hpair.append hsent

theorem keeps_ran {kind : Kind} (h : sort kind) (polls : Nat) (c : Settings 𝕜) (number : Nat) :
    Keeps sort (attempt polls c (.ran kind) number kind : Action σ ρ Unit).run := by
  apply keeps_attempt
  · intro answer hreport
    cases answer with
    | error fault => exact .raised kind h fault
    | ok outputs => exact .returned kind h outputs (hreport outputs rfl)
  · intro answer k _
    cases answer <;> rfl

theorem keeps_paused (polls : Nat) (c : Settings 𝕜) (number : Nat) :
    Keeps sort (attempt polls c .paused number .sleep : Action σ ρ Unit).run := by
  apply keeps_attempt
  · intro answer hreport
    cases answer with
    | error fault => exact .restless fault
    | ok outputs => exact .paused outputs (hreport outputs rfl)
  · intro answer k hk
    rw [decide_eq_false (Ne.symm hk), Bool.and_false]
    rfl

/-- Whether a policy selects only operations of a sort. -/
def Policy.Chooses (sort : Kind → Prop) (policy : Policy τ ρ) : Prop :=
  ∀ elapsed duration memory random kind,
    (policy.choose elapsed duration memory random).1 = .ok (some kind) → sort kind

omit [RandomSource ρ] [Surroundings σ] in
theorem keeps_selected {answer : Outcome (Option Kind)}
    (h : ∀ kind, answer = .ok (some kind) → sort kind) :
    Keeps sort (Course.note (.turned (.selected answer)) : Course σ ρ Unit) := by
  apply (Course.adds_note _).mono
  rintro ⟨⟩ _ rfl
  apply isKept_turned
  · cases answer with
    | error fault => exact .unselected fault
    | ok choice =>
        cases choice with
        | none => exact .exhausted
        | some kind => exact .selected kind (h kind rfl)
  · intro k _
    cases answer <;> rfl
  · rfl

omit [RandomSource ρ] [Surroundings σ] in
theorem keeps_looked (elapsed : Int) :
    Keeps sort (Course.note (.turned (.looked elapsed)) : Course σ ρ Unit) := by
  apply (Course.adds_note _).mono
  rintro ⟨⟩ _ rfl
  exact isKept_turned (.looked elapsed) (fun _ _ => rfl) rfl

theorem isNeutral_of_isQuiet {e : Event} (h : e.IsQuiet) : IsNeutral e := by
  cases e with
  | turned turn => exact h.elim
  | finished number kind latency => exact h.elim
  | _ => exact ⟨rfl, fun _ => rfl⟩

/-- The events of a run are kept in step. -/
theorem sustains_isKept {policy : Policy τ ρ} (h : policy.Chooses sort) (polls : Nat)
    (c : Settings 𝕜) :
    Sustains (fun s : Scene σ ρ => IsKept sort s.journal.reverse) (fun _ => True) policy
      polls c where
  draw := fun _ _ hs => hs
  note := fun _ he => (keeps_note (isNeutral_of_isQuiet he)).ensures
  now := (keeps_of_addsOnly (Course.adds_now.addsOnly fun _ _ h => h)).ensures
  looked := fun elapsed => (keeps_looked elapsed).ensures
  selected := fun _ _ _ memory random _ _ =>
    (keeps_selected fun _ => h _ _ memory random _).ensures
  ran := fun _ memory random kind hchoice number =>
    (keeps_ran (h _ _ memory random kind hchoice) polls c number).ensures
  paused := fun _ number => (keeps_paused polls c number).ensures

end Keeping

section Conservation

open Measurement

/-- What the statistics and latencies of a run say of the attempts of a kind. -/
structure IsConserved {σ : Type} (a : Account σ) (kind : Kind) : Prop where
  /-- Every selection is a success, a failure, or an attempt that raised. -/
  selected_eq : (a.turns.countP (selects kind) : Int) =
    total a.records kind.name successes + total a.records kind.name failures +
      a.turns.countP (raises kind)
  /-- Every success and every failure has a latency. -/
  latencies_eq : ((a.latencies.histogram kind.name).total : Int) =
    total a.records kind.name successes + total a.records kind.name failures
  /-- Every success and every failure has a time, but for attempts that return a statistic without
  a text. -/
  times_eq : (a.records.countP (times kind) + a.turns.countP (isCut kind) : Int) =
    total a.records kind.name successes + total a.records kind.name failures
  notFound_le : total a.records kind.name notFound ≤ total a.records kind.name failures

variable {σ ρ τ : Type} [RandomSource ρ] [Surroundings σ] {sort : Kind → Prop}
  {policy : Policy τ ρ} {limit : Nat} {key value : String} {world : σ} {random : ρ}
  {a : Account σ}

theorem isKept_of_run (hsort : policy.Chooses sort)
    (h : accountWith policy limit c key value world random = some a) : IsKept sort a.events := by
  obtain ⟨s, hs, -, hevents⟩ := (sustains_isKept hsort limit c).exists_of_run h
    (isKept_of_isNeutral (by simp))
  rwa [hevents] at hs

theorem isRounds_of_run (h : accountWith policy limit c key value world random = some a) :
    IsRounds c a.turns a.ending ∧ ∃ ms, a.records = a.turns.flatMap Turn.sent ++
      [.long opType opCount (a.turns.countP Turn.isChoice), .long opType timeTaken ms] :=
  post_of_run (tells_runWith policy limit c key value) h

theorem name_ne_opType (kind : Kind) : opType ≠ kind.name := by
  cases kind <;> decide

theorem isConserved_of_run (h : accountWith policy limit c key value world random = some a)
    (hkind : kind ≠ .sleep) : IsConserved a kind := by
  have hkept : IsKept (fun _ => True) a.events := isKept_of_run (fun _ _ _ _ _ _ => trivial) h
  have hsound : ∀ turn ∈ a.turns, turn.IsSound fun _ => True := hkept.sound
  obtain ⟨hrounds, ms, hrecords⟩ := isRounds_of_run h
  have hselected := hrounds.countP_selects kind
  have hfinished : a.events.countP (Event.finishes kind) = a.turns.countP (returns kind) :=
    hkept.finished kind hkind
  obtain ⟨hreturned, hnotFound⟩ := total_sent_turns hsound hkind
  have hown : ∀ measurement, total a.records kind.name measurement =
      total (a.turns.flatMap Turn.sent) kind.name measurement := by
    intro measurement
    have hworker :
        total [.long opType opCount (a.turns.countP Turn.isChoice), .long opType timeTaken ms]
        kind.name measurement = 0 := by
      apply total_eq_zero
      simp [long, name_ne_opType]
    rw [hrecords, total_append, hworker, add_zero]
  constructor
  · rw [hown, hown, hreturned]
    omega
  · rw [hown, hown, hreturned, Account.latencies, Latencies.total_ofEvents, hfinished]
  · have htimes := countP_times_turns hsound hkind
    have hworker : [Record.long opType opCount (a.turns.countP Turn.isChoice),
        .long opType timeTaken ms].countP (times kind) = 0 := by
      simp [times, long, name_ne_opType]
    rw [hown, hown, hreturned, hrecords, List.countP_append, hworker]
    omega
  · rwa [hown, hown]

theorem countP_eq_sum {p : Turn → Bool} {q : Kind → Turn → Bool}
    (h : ∀ turn ∈ turns, (if p turn then 1 else 0 : Int) =
      (Kind.selectable.map fun k => if q k turn then 1 else 0).sum) :
    (turns.countP p : Int) = (Kind.selectable.map fun k => (turns.countP (q k) : Int)).sum := by
  induction turns with
  | nil => simp
  | cons turn turns ih =>
      obtain ⟨hturn, hturns⟩ := List.forall_mem_cons.mp h
      simp only [List.countP_cons, Nat.cast_add, Nat.cast_ite, Nat.cast_one, Nat.cast_zero,
        List.sum_map_add, ih hturns, hturn]

theorem total_opCount_eq_countP (h : accountWith policy limit c key value world random = some a) :
    total a.records opType opCount = a.turns.countP Turn.isChoice := by
  have hkept : IsKept (fun _ => True) a.events := isKept_of_run (fun _ _ _ _ _ _ => trivial) h
  obtain ⟨-, ms, hrecords⟩ := isRounds_of_run h
  have hsent : total (a.turns.flatMap Turn.sent) opType opCount = 0 := by
    apply total_eq_zero
    intro r hr heq
    obtain ⟨turn, hturn, hr⟩ := List.mem_flatMap.mp hr
    obtain ⟨kind, hname, -⟩ := (hkept.sound turn hturn).exists_name hr
    exact absurd (heq.symm.trans hname) (name_ne_opType kind)
  rw [hrecords, total_append, hsent, total_cons, amount_long, if_pos ⟨rfl, rfl⟩, total_cons,
    amount_long, if_neg (by decide)]
  simp [total]

/-- The number of operations of a worker is told by its statistics and the attempts that
raised. -/
theorem total_opCount (h : accountWith policy limit c key value world random = some a)
    (hsort : policy.Chooses (· ≠ .sleep)) :
    total a.records opType opCount = answered a.records + a.turns.countP Turn.hasRaised := by
  have hsound := (isKept_of_run hsort h).sound
  have hchoices : (a.turns.countP Turn.isChoice : Int) =
      (Kind.selectable.map fun k => (a.turns.countP (selects k) : Int)).sum := by
    apply countP_eq_sum
    intro turn hturn
    cases hsound turn hturn with
    | selected k hk => cases k <;> first | rfl | exact absurd rfl hk
    | _ => rfl
  have hraised : (a.turns.countP Turn.hasRaised : Int) =
      (Kind.selectable.map fun k => (a.turns.countP (raises k) : Int)).sum := by
    apply countP_eq_sum
    intro turn hturn
    cases hsound turn hturn with
    | raised k hk fault => cases k <;> first | rfl | exact absurd rfl hk
    | _ => rfl
  rw [total_opCount_eq_countP h, hchoices, hraised, answered, ← List.sum_map_add]
  congr 1
  apply List.map_congr_left
  intro k hk
  exact (isConserved_of_run h (Kind.mem_selectable_iff.mp hk)).selected_eq

theorem isCount_of_run (h : accountWith policy limit c key value world random = some a) :
    ∀ r ∈ a.records, r.IsCount := by
  have hkept : IsKept (fun _ => True) a.events := isKept_of_run (fun _ _ _ _ _ _ => trivial) h
  obtain ⟨-, ms, hrecords⟩ := isRounds_of_run h
  rw [hrecords]
  refine List.forall_mem_append.mpr ⟨?_, ?_⟩
  · intro r hr
    obtain ⟨turn, hturn, hr⟩ := List.mem_flatMap.mp hr
    obtain ⟨-, -, hcount⟩ := (hkept.sound turn hturn).exists_name hr
    exact hcount
  · have hstar : '*' ∉ opType.toList := by decide
    simp only [List.forall_mem_cons]
    exact ⟨⟨rfl, hstar⟩, ⟨rfl, hstar⟩, by simp⟩

end Conservation

section Weighted

open Measurement

variable {σ ρ : Type} [RandomSource ρ] [Surroundings σ] [Add 𝕜] [Sub 𝕜] [Mul 𝕜] [Div 𝕜] [LE 𝕜]
  [LT 𝕜] [BEq 𝕜] [OfScientific 𝕜] [DecidableLE 𝕜] [DecidableLT 𝕜] [Reckoning 𝕜]

omit [Surroundings σ] in
theorem chooses_weighted {sort : Kind → Prop} (h : ∀ s ∈ c.operations, sort s.kind) :
    (weighted c : Policy Tally ρ).Chooses sort := by
  intro elapsed duration tally random kind hchoice
  simp only [weighted] at hchoice
  split at hchoice
  · cases hchoice
  · cases hchoice
  · rename_i k t r hselect
    obtain ⟨-, s, hs, rfl, -⟩ := Selector.exists_of_select hselect
    cases hready : Operation.ready c s.kind with
    | error fault =>
        rw [hready] at hchoice
        cases hchoice
    | ok =>
        rw [hready] at hchoice
        obtain rfl := Option.some.inj (Except.ok.inj hchoice)
        exact h s hs

omit [Surroundings σ] in
theorem exists_choice {c : Settings Float} (hkinds : ∀ s ∈ c.operations, s.kind ≠ .sleep)
    {space : Namespace} (hspace : c.space = .ok space) {elapsed : Int} (helapsed : 0 ≤ elapsed)
    (hduration : 0 < c.durationMs) (hbound : elapsed.natAbs ≤ 2 ^ 1020 * c.durationMs.natAbs)
    (t : Tally) (r : ρ) :
    ∃ choice, ((weighted c).choose elapsed c.durationMs t r).1 = .ok choice := by
  obtain ⟨found, hfound⟩ := Selector.exists_select c.operations helapsed hduration hbound t r
  simp only [weighted, hfound]
  cases found with
  | none => exact ⟨none, rfl⟩
  | some found =>
      obtain ⟨kind, t', r'⟩ := found
      obtain ⟨-, s, hs, rfl, -⟩ := Selector.exists_of_select hfound
      refine ⟨some s.kind, ?_⟩
      dsimp only
      rw [Operation.ready, if_neg (hkinds s hs), hspace]
      rfl

variable {runs : List (Settings 𝕜 × Account σ)}

theorem total_runs (h : ∀ run ∈ runs, ∃ limit key value world, ∃ random : ρ,
      account limit run.1 key value world random = some run.2)
    (hkinds : ∀ run ∈ runs, ∀ s ∈ run.1.operations, s.kind ≠ .sleep) :
    total (runs.flatMap fun run => run.2.records) opType opCount =
      answered (runs.flatMap fun run => run.2.records) +
        (runs.map fun run => (run.2.turns.countP Turn.hasRaised : Int)).sum := by
  induction runs with
  | nil => simp [total, answered]
  | cons run runs ih =>
      obtain ⟨⟨limit, key, value, world, random, hrun⟩, hruns⟩ := List.forall_mem_cons.mp h
      obtain ⟨hkind, hkinds⟩ := List.forall_mem_cons.mp hkinds
      rw [List.flatMap_cons, total_append, answered_append, List.map_cons, List.sum_cons,
        ih hruns hkinds, total_opCount hrun (chooses_weighted hkind)]
      omega

/-- The attempts of any number of workers are conserved.  In the run of each, and for each kind
that can be selected, every selection is a success, a failure, or an attempt that raised, every
success and failure has a latency, and it has a time unless what its attempt returned is cut.
When their statistics are merged in any order, the number of operations is that of all successes,
failures, and attempts that raised. -/
theorem attempts_conserved (runs : List (Settings 𝕜 × Account σ))
    (h : ∀ run ∈ runs, ∃ limit key value world, ∃ random : ρ,
      account limit run.1 key value world random = some run.2) :
    (∀ run ∈ runs, ∀ kind ≠ .sleep, IsConserved run.2 kind) ∧
      ((∀ run ∈ runs, ∀ s ∈ run.1.operations, s.kind ≠ .sleep) →
        ∀ records pairs, records.Perm (runs.flatMap fun run => run.2.records) →
          Job.pairs records = .ok pairs →
          ∃ merged, Reducer.reduce (pairs.map fun (key, text) => (key, .text text)) = .ok merged ∧
            total merged opType opCount = answered merged +
              (runs.map fun run => (run.2.turns.countP Turn.hasRaised : Int)).sum) := by
  constructor
  · intro run hrun kind hkind
    obtain ⟨limit, key, value, world, random, haccount⟩ := h run hrun
    exact isConserved_of_run haccount hkind
  · intro hkinds records pairs hperm hpairs
    have hcounts : ∀ r ∈ records, r.IsCount := by
      intro r hr
      obtain ⟨run, hrun, hr⟩ := List.mem_flatMap.mp (hperm.subset hr)
      obtain ⟨limit, key, value, world, random, haccount⟩ := h run hrun
      exact isCount_of_run haccount r hr
    obtain ⟨m, hm, -, htotal⟩ := Reducer.exists_addAll hcounts hpairs
    refine ⟨m.outputs, ?_, ?_⟩
    · rw [Reducer.reduce, hm]
    · have hsame : ∀ o measurement, total m.outputs o measurement =
          total (runs.flatMap fun run => run.2.records) o measurement := by
        intro o measurement
        rw [htotal, total_perm hperm]
      simp only [answered, hsame]
      exact total_runs h hkinds

/-- Two directories to be made and one to be listed, within a second. -/
def busy : Settings Float :=
  { plain with
    operations := [⟨.mkdir, 50.0, .constant 1.0, some 2⟩, ⟨.ls, 50.0, .constant 1.0, some 1⟩] }

/-- Two workers make directories, but what each is answered when it lists one is no listing. -/
theorem attempts_conserved_busy :
    ∃ a pairs merged, account 5 busy "k" "v" (⟨0⟩ : Obliging) (⟨⟩ : Zeros) = some a ∧
      Job.pairs (a.records ++ a.records) = .ok pairs ∧
      Reducer.reduce (pairs.map fun (key, text) => (key, .text text)) = .ok merged ∧
      IsConserved a .mkdir ∧ IsConserved a .ls ∧
      total merged opType opCount = answered merged + 2 := by
  have hrun : (account 5 busy "k" "v" (⟨0⟩ : Obliging) (⟨⟩ : Zeros)).map (fun a =>
      (a.turns.countP Turn.hasRaised, (Job.pairs (a.records ++ a.records)).isOk)) =
        some (1, true) := by
    decide +kernel
  obtain ⟨a, ha, hfacts⟩ := Option.map_eq_some_iff.mp hrun
  obtain ⟨hraised, hok⟩ := Prod.mk.inj hfacts
  cases hpairs : Job.pairs (a.records ++ a.records) with
  | error fault =>
      rw [hpairs] at hok
      cases hok
  | ok pairs =>
      have hkinds : ∀ s ∈ busy.operations, s.kind ≠ .sleep := by decide
      have hruns : ∀ run ∈ [(busy, a), (busy, a)], ∃ limit key value world, ∃ random : Zeros,
          account limit run.1 key value world random = some run.2 := by
        simpa using ⟨5, "k", "v", ⟨0⟩, ⟨⟩, ha⟩
      obtain ⟨hconserved, hmerged⟩ := attempts_conserved _ hruns
      obtain ⟨merged, hreduce, htotal⟩ :=
        hmerged (by simpa using hkinds) (a.records ++ a.records) pairs (by simp) hpairs
      refine ⟨a, pairs, merged, ha, hpairs, hreduce, ?_, ?_, ?_⟩
      · exact hconserved _ List.mem_cons_self .mkdir (by decide)
      · exact hconserved _ List.mem_cons_self .ls (by decide)
      · rw [htotal]
        simp [hraised]

/-- One file to be made, within a second. -/
def filing : Settings Float :=
  { plain with operations := [⟨.create, 100.0, .constant 1.0, some 1⟩] }

/-- The file is made and has a latency, but what was written is too much for a text: no time of it
goes out, although the attempt did not raise. -/
theorem untimed_lavish :
    ∃ a, account 5 filing "k" "v" (⟨0⟩ : Lavish) (⟨⟩ : Zeros) = some a ∧
      a.turns.countP (selects .create) = 1 ∧ a.turns.countP (raises .create) = 0 ∧
      total a.records Kind.create.name successes = 1 ∧
      total a.records Kind.create.name failures = 0 ∧
      (a.latencies.histogram Kind.create.name).total = 1 ∧
      a.records.countP (times .create) = 0 := by
  have hrun : (account 5 filing "k" "v" (⟨0⟩ : Lavish) (⟨⟩ : Zeros)).map (fun a =>
      (a.turns.countP (selects .create), a.turns.countP (raises .create),
        total a.records Kind.create.name successes, total a.records Kind.create.name failures,
        (a.latencies.histogram Kind.create.name).total, a.records.countP (times .create))) =
      some (1, 0, 1, 0, 1, 0) := by
    decide +kernel
  obtain ⟨a, ha, hfacts⟩ := Option.map_eq_some_iff.mp hrun
  simp only [Prod.mk.injEq] at hfacts
  exact ⟨a, ha, hfacts⟩

end Weighted

end Worker

end StorageLoad
