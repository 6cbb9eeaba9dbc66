import Mathlib.Data.List.TakeWhile
import StorageLoad.Proofs.Operation
import StorageLoad.Proofs.Random
import StorageLoad.Worker

/-!
What the loop of a worker does, whatever selects the operations and whatever the storage service
answers.  The turns of a run make up rounds of a few forms (`IsRounds`).  From the forms follow
what comes after what, how the run ends, and what is emitted (`isAccounted_of_run`): of what an
operation returns everything, or else what stands before the first statistic that is too long for
a text, which makes the attempt a failed one.
-/

namespace StorageLoad

namespace Worker

/-- Whether an operation returns and all its statistics have texts. -/
def hasReturned : Outcome (List Record) → Bool
  | .ok outputs => outputs.all (·.text.isOk)
  | .error _ => false

/-- The statistics of an operation that go out: all of them, or those before the first without a
text. -/
def sentOf : Outcome (List Record) → List Record
  | .ok outputs => outputs.takeWhile (·.text.isOk)
  | .error _ => []

end Worker

namespace Turn

open Worker

/-- The statistics that an operation or a pause returns. -/
def outputs : Turn → List Record
  | ran _ (.ok outputs) => outputs
  | paused (.ok outputs) => outputs
  | _ => []

/-- The statistics that go out. -/
def sent : Turn → List Record
  | ran _ answer => sentOf answer
  | paused answer => sentOf answer
  | _ => []

/-- Whether the turn is a selection that gave an operation. -/
def isChoice : Turn → Bool
  | selected (.ok (some _)) => true
  | _ => false

/-- Whether an attempt to select an operation, to run one or to pause has failed. -/
def hasFailed? : Turn → Option Bool
  | looked _ => none
  | selected (.error _) => some true
  | selected (.ok _) => some false
  | ran _ answer => some (!hasReturned answer)
  | paused answer => some (!hasReturned answer)

end Turn

namespace Worker

variable {σ ρ τ 𝕜 α β : Type}

section Rounds

/-- The turns of one round, and what follows on them. -/
inductive IsRound (c : Settings 𝕜) : List Turn → Next → Prop
  | unselected (fault : Fault) : IsRound c [.selected (.error fault)] (afterFailure c)
  | exhausted : IsRound c [.selected (.ok none)] (.stop .exhausted)
  | failed (kind : Kind) (answer : Outcome (List Record)) (h : ¬ hasReturned answer) :
      IsRound c [.selected (.ok (some kind)), .ran kind answer] (afterFailure c)
  | unpaused (kind : Kind) (answer : Outcome (List Record)) (h : hasReturned answer)
      (hpause : c.pause.isNone) : IsRound c [.selected (.ok (some kind)), .ran kind answer] .again
  | restless (kind : Kind) (answer rest : Outcome (List Record)) (h : hasReturned answer)
      (hpause : c.pause.isSome) (hrest : ¬ hasReturned rest) :
      IsRound c [.selected (.ok (some kind)), .ran kind answer, .paused rest] (afterFailure c)
  | paused (kind : Kind) (answer rest : Outcome (List Record)) (h : hasReturned answer)
      (hpause : c.pause.isSome) (hrest : hasReturned rest) :
      IsRound c [.selected (.ok (some kind)), .ran kind answer, .paused rest] .again

/-- The turns of a run, and how it ends. -/
inductive IsRounds (c : Settings 𝕜) : List Turn → Ending → Prop
  | timeout (elapsed : Int) (h : c.durationMs ≤ elapsed) : IsRounds c [.looked elapsed] .timeout
  | stop (elapsed : Int) (h : elapsed < c.durationMs) (turns : List Turn) (ending : Ending)
      (hround : IsRound c turns (.stop ending)) : IsRounds c (.looked elapsed :: turns) ending
  | again (elapsed : Int) (h : elapsed < c.durationMs) (turns rest : List Turn) (ending : Ending)
      (hround : IsRound c turns .again) (hrest : IsRounds c rest ending) :
      IsRounds c (.looked elapsed :: (turns ++ rest)) ending

end Rounds

section Telling

/-- If the course ends, the condition holds for the turns and the emitted statistics that it
adds. -/
def Tells (course : Course σ ρ α) (post : α → List Turn → List Record → Prop) : Prop :=
  course.Adds fun a events =>
    post a (events.filterMap Event.turn?) (events.filterMap Event.record?)

theorem Tells.mono {course : Course σ ρ α} {post post' : α → List Turn → List Record → Prop}
    (h : Tells course post)
    (himp : ∀ a turns records, post a turns records → post' a turns records) :
    Tells course post' :=
  Course.Adds.mono h fun a _ hpost => himp a _ _ hpost

theorem Tells.bind {course : Course σ ρ α} {next : α → Course σ ρ β}
    {post : α → List Turn → List Record → Prop} {post' : β → List Turn → List Record → Prop}
    (h : Tells course post)
    (hnext : ∀ a turns records, post a turns records → Tells (next a) fun b turns' records' =>
      post' b (turns ++ turns') (records ++ records')) :
    Tells (course >>= next) post' := by
  apply Course.Adds.bind h
  intro a first hfirst
  apply Course.Adds.mono (hnext a _ _ hfirst)
  intro b rest hrest
  rwa [List.filterMap_append, List.filterMap_append]

theorem Tells.bind_silent {course : Course σ ρ α} {next : α → Course σ ρ β}
    {post : β → List Turn → List Record → Prop}
    (h : course.AddsOnly fun e => e.turn? = none ∧ e.record? = none)
    (hnext : ∀ a, Tells (next a) post) : Tells (course >>= next) post := by
  apply Course.Adds.bind h
  intro a first hfirst
  apply Course.Adds.mono (hnext a)
  intro b rest hrest
  rw [List.filterMap_append, List.filterMap_append,
    List.filterMap_eq_nil_iff.mpr fun e he => (hfirst e he).1,
    List.filterMap_eq_nil_iff.mpr fun e he => (hfirst e he).2]
  exact hrest

theorem tells_pure {a : α} {post : α → List Turn → List Record → Prop} (h : post a [] []) :
    Tells (pure a : Course σ ρ α) post := by
  apply (Course.adds_pure a).mono
  rintro b events ⟨rfl, rfl⟩
  exact h

theorem Tells.bind_turn {turn : Turn} {next : Unit → Course σ ρ β}
    {post : β → List Turn → List Record → Prop}
    (hnext : Tells (next ()) fun b turns records => post b (turn :: turns) records) :
    Tells (Course.note (.turned turn) >>= next) post := by
  apply Course.Adds.bind (Course.adds_note _)
  rintro ⟨⟩ first rfl
  exact hnext

theorem Tells.bind_emitted {record : Record} {next : Unit → Course σ ρ β}
    {post : β → List Turn → List Record → Prop}
    (hnext : Tells (next ()) fun b turns records => post b turns (record :: records)) :
    Tells (Course.note (.emitted record) >>= next) post := by
  apply Course.Adds.bind (Course.adds_note _)
  rintro ⟨⟩ first rfl
  exact hnext

variable [Surroundings σ]

theorem Tells.bind_elapsed {start : Int} {next : Int → Course σ ρ β}
    {post : β → List Turn → List Record → Prop} (hnext : ∀ time, Tells (next time) post) :
    Tells (Course.elapsed start >>= next) post :=
  Tells.bind_silent ((Course.adds_elapsed start).addsOnly fun _ _ h => h) hnext

theorem Tells.bind_now {next : Int → Course σ ρ β} {post : β → List Turn → List Record → Prop}
    (hnext : ∀ time, Tells (next time) post) : Tells (Course.now >>= next) post :=
  Tells.bind_silent (Course.adds_now.addsOnly fun _ _ h => h) hnext

end Telling

variable [RandomSource ρ] [Surroundings σ]

omit [RandomSource ρ] [Surroundings σ] in
theorem run_emitAll_cons (output : Record) (outputs : List Record) :
    ((output :: outputs).forM emit : Action σ ρ Unit).run =
      match output.text with
      | .error fault => pure (.error fault)
      | .ok _ => Course.note (.emitted output) >>= fun _ =>
          (outputs.forM emit : Action σ ρ Unit).run := by
  rw [List.forM_eq_forM, List.forM_cons, emit]
  cases output.text with
  | error fault => rfl
  | ok text => rfl

omit [RandomSource ρ] [Surroundings σ] in
theorem tells_emitAll (outputs : List Record) :
    Tells (outputs.forM emit : Action σ ρ Unit).run fun answer turns records =>
      turns = [] ∧ records = sentOf (.ok outputs) ∧ answer.isOk = hasReturned (.ok outputs) := by
  induction outputs with
  | nil => exact tells_pure ⟨rfl, rfl, rfl⟩
  | cons output outputs ih =>
      rw [run_emitAll_cons]
      cases htext : output.text with
      | error fault =>
          apply tells_pure
          simp [sentOf, hasReturned, htext, Except.isOk, Except.toBool]
      | ok text =>
          apply Tells.bind_emitted
          apply ih.mono
          rintro answer turns records ⟨rfl, rfl, hanswer⟩
          simp [sentOf, hasReturned, htext, Except.isOk, Except.toBool] at hanswer ⊢
          exact hanswer

theorem run_attempt (polls : Nat) (c : Settings 𝕜) (turn : Outcome (List Record) → Turn)
    (number : Nat) (kind : Kind) :
    (attempt polls c turn number kind : Action σ ρ Unit).run =
      (Course.note (.running number kind) >>= fun _ => Course.now >>= fun start =>
        (Operation.run polls c kind : Action σ ρ (List Record)).run >>= fun answer =>
          Course.note (.turned (turn answer)) >>= fun _ =>
            match answer with
            | .error fault => pure (.error fault)
            | .ok outputs => Course.elapsed start >>= fun time =>
                Course.note (.finished number kind time) >>= fun _ =>
                  (outputs.forM emit : Action σ ρ Unit).run) := by
  simp only [attempt, Action.note, Action.now, Action.elapsed, Action.ofCourse,
    ExceptT.run_bind_lift]
  congr 1
  funext _
  congr 1
  funext start
  congr 1
  funext answer
  congr 1
  funext _
  cases answer with
  | error fault => rfl
  | ok outputs =>
      rw [ExceptT.run_bind]
      rfl

theorem tells_attempt (polls : Nat) (c : Settings 𝕜) (turn : Outcome (List Record) → Turn)
    (number : Nat) (kind : Kind) :
    Tells (attempt polls c turn number kind : Action σ ρ Unit).run fun answer turns records =>
      ∃ outcome, turns = [turn outcome] ∧ records = sentOf outcome ∧
        answer.isOk = hasReturned outcome := by
  rw [run_attempt]
  apply Tells.bind_silent (Course.addsOnly_note ⟨rfl, rfl⟩)
  intro _
  apply Tells.bind_now
  intro start
  apply Tells.bind_silent ((Operation.addsOnly_run polls c kind).mono ?_)
  · intro answer
    apply Tells.bind_turn
    cases answer with
    | error fault => exact tells_pure ⟨.error fault, rfl, rfl, rfl⟩
    | ok outputs =>
        apply Tells.bind_elapsed
        intro time
        apply Tells.bind_silent (Course.addsOnly_note ⟨rfl, rfl⟩)
        intro _
        apply (tells_emitAll outputs).mono
        rintro answer turns records ⟨rfl, rfl, hanswer⟩
        exact ⟨.ok outputs, rfl, rfl, hanswer⟩
  · intro answer events hevents e he
    have hown := hevents e he
    cases e with
    | asked request => exact ⟨rfl, rfl⟩
    | slept ms => exact ⟨rfl, rfl⟩
    | settled path replicas ms => exact ⟨rfl, rfl⟩
    | _ => exact hown.elim

omit [RandomSource ρ] [Surroundings σ] in
theorem tells_recover (c : Settings 𝕜) (p : Progress τ) (kind : Option Kind) (fault : Fault) :
    Tells (recover c p kind fault : Course σ ρ (Next × Progress τ)) fun result turns records =>
      result = (afterFailure c, p) ∧ turns = [] ∧ records = [] := by
  apply Tells.bind_silent (Course.addsOnly_note ⟨rfl, rfl⟩)
  intro _
  exact tells_pure ⟨rfl, rfl, rfl⟩

omit [RandomSource ρ] [Surroundings σ] in
theorem tells_select (policy : Policy τ ρ) (c : Settings 𝕜) (memory : τ) (elapsed : Int) :
    Tells (select policy c memory elapsed : Course σ ρ (Outcome (Option Kind) × τ))
      fun result turns records => turns = [.selected result.1] ∧ records = [] := by
  apply Tells.bind_silent ((Course.adds_draw _).addsOnly fun _ _ h => h.2)
  rintro ⟨answer, memory⟩
  apply Tells.bind_turn
  exact tells_pure ⟨rfl, rfl⟩

/-- A round has one of the forms of rounds, emits what its turns send, and counts the operations
it selects. -/
theorem tells_round (policy : Policy τ ρ) (polls : Nat) (c : Settings 𝕜) (start : Int)
    (p : Progress τ) :
    Tells (round policy polls c start p : Course σ ρ (Next × Progress τ))
      fun result turns records => IsRound c turns result.1 ∧ records = turns.flatMap Turn.sent ∧
        result.2.operations = p.operations + turns.countP Turn.isChoice := by
  apply Tells.bind_silent (Course.addsOnly_note ⟨rfl, rfl⟩)
  intro _
  apply Tells.bind_elapsed
  intro elapsed
  apply (tells_select policy c p.memory elapsed).bind
  rintro ⟨answer, memory⟩ turns records ⟨rfl, rfl⟩
  cases answer with
  | error fault =>
      apply (tells_recover c _ none fault).mono
      rintro result turns records ⟨rfl, rfl, rfl⟩
      exact ⟨.unselected fault, rfl, rfl⟩
  | ok choice =>
      cases choice with
      | none => exact tells_pure ⟨.exhausted, rfl, rfl⟩
      | some kind =>
          apply (tells_attempt polls c (.ran kind) (p.operations + 1) kind).bind
          rintro result turns records ⟨outcome, rfl, rfl, hresult⟩
          cases result with
          | error fault =>
              have hfailed : ¬ hasReturned outcome := by
                rw [← hresult]
                exact Bool.false_ne_true
              apply (tells_recover c _ (some kind) fault).mono
              rintro result turns records ⟨rfl, rfl, rfl⟩
              exact ⟨.failed kind outcome hfailed, by simp [Turn.sent], rfl⟩
          | ok =>
              have hreturned : hasReturned outcome := hresult.symm
              dsimp only
              split
              · rename_i hpause
                exact tells_pure ⟨.unpaused kind outcome hreturned hpause, by simp [Turn.sent],
                  rfl⟩
              · rename_i hpause
                have hset : c.pause.isSome := by
                  rwa [← Option.isNone_eq_false_iff, ← Bool.not_eq_true]
                apply (tells_attempt polls c .paused (p.pauses + 1) .sleep).bind
                rintro result turns records ⟨rest, rfl, rfl, hresult⟩
                cases result with
                | error fault =>
                    have hfailed : ¬ hasReturned rest := by
                      rw [← hresult]
                      exact Bool.false_ne_true
                    apply (tells_recover c _ (some .sleep) fault).mono
                    rintro result turns records ⟨rfl, rfl, rfl⟩
                    exact ⟨.restless kind outcome rest hreturned hset
                      hfailed, by simp [Turn.sent], rfl⟩
                | ok =>
                    exact tells_pure ⟨.paused kind outcome rest hreturned hset hresult.symm,
                      by simp [Turn.sent], rfl⟩

theorem tells_loop (policy : Policy τ ρ) (polls : Nat) (c : Settings 𝕜) (start : Int)
    (rounds : Nat) (p : Progress τ) :
    Tells (loop policy polls c start rounds p : Course σ ρ (Ending × Progress τ))
      fun result turns records => IsRounds c turns result.1 ∧ records = turns.flatMap Turn.sent ∧
        result.2.operations = p.operations + turns.countP Turn.isChoice := by
  induction rounds generalizing p with
  | zero => exact Course.adds_endless _
  | succ rounds ih =>
      rw [loop]
      apply Tells.bind_elapsed
      intro elapsed
      apply Tells.bind_turn
      split
      · rename_i hover
        exact tells_pure ⟨.timeout elapsed hover, rfl, rfl⟩
      · rename_i hover
        have hbefore : elapsed < c.durationMs := Int.not_le.mp hover
        apply (tells_round policy polls c start p).bind
        rintro ⟨next, q⟩ turns records ⟨hround, rfl, hoperations⟩
        cases next with
        | stop ending =>
            apply tells_pure
            rw [List.append_nil, List.append_nil]
            exact ⟨.stop elapsed hbefore turns ending hround, rfl, hoperations⟩
        | again =>
            apply (ih q).mono
            rintro ⟨ending, r⟩ turns' records ⟨hrounds, rfl, hoperations'⟩
            refine ⟨.again elapsed hbefore turns turns' ending hround hrounds, ?_, ?_⟩
            · rw [List.flatMap_cons, List.flatMap_append]
              rfl
            · rw [hoperations', hoperations,
                List.countP_cons_of_neg (by exact Bool.false_ne_true),
                List.countP_append, Nat.add_assoc]

section Order

variable {c : Settings 𝕜} {turns : List Turn} {ending : Ending}

/-- What two turns that stand next to each other say of one another; there is none after the
last. -/
structure Link (c : Settings 𝕜) (turn next : Option Turn) : Prop where
  paused_iff : (∃ rest, next = some (.paused rest)) ↔
    c.pause.isSome ∧ ∃ kind answer, turn = some (.ran kind answer) ∧ hasReturned answer
  ran_iff : ∀ kind, (∃ answer, next = some (.ran kind answer)) ↔
    turn = some (.selected (.ok (some kind)))
  selected_iff : (∃ answer, next = some (.selected answer)) ↔
    ∃ elapsed, turn = some (.looked elapsed) ∧ elapsed < c.durationMs
  ended : ∀ elapsed, turn = some (.looked elapsed) → c.durationMs ≤ elapsed → next = none

/-- Every turn is linked to the next one. -/
def Linked (c : Settings 𝕜) (turns : List Turn) : Prop :=
  ∀ i, Link c turns[i]? turns[i + 1]?

theorem linked_nil : Linked c [] := by
  intro i
  constructor <;> simp

theorem linked_cons {turn : Turn} :
    Linked c (turn :: turns) ↔ Link c (some turn) turns.head? ∧ Linked c turns := by
  constructor
  · intro h
    refine ⟨?_, fun i => h (i + 1)⟩
    have hfirst := h 0
    rwa [List.getElem?_cons_zero, List.getElem?_cons_succ, ← List.head?_eq_getElem?] at hfirst
  · rintro ⟨hfirst, hrest⟩ i
    cases i with
    | zero => rwa [List.getElem?_cons_zero, List.getElem?_cons_succ, ← List.head?_eq_getElem?]
    | succ i => exact hrest i

/-- Between two rounds, and at the end, stands nothing or a look at the time. -/
def IsBreak (next : Option Turn) : Prop :=
  ∀ turn, next = some turn → ∃ elapsed, turn = .looked elapsed

theorem link_break {turn : Turn} {next : Option Turn} (hnext : IsBreak next)
    (hlooked : ∀ elapsed, turn ≠ .looked elapsed) (hchoice : ¬ turn.isChoice)
    (hpause : ∀ kind answer, turn = .ran kind answer → hasReturned answer → c.pause.isNone) :
    Link c (some turn) next := by
  constructor
  · constructor
    · rintro ⟨rest, hrest⟩
      obtain ⟨elapsed, heq⟩ := hnext _ hrest
      cases heq
    · rintro ⟨hset, kind, answer, hturn, hreturned⟩
      have hnone := hpause kind answer (Option.some.inj hturn) hreturned
      rw [Option.isNone_iff_eq_none] at hnone
      rw [hnone] at hset
      cases hset
  · intro kind
    constructor
    · rintro ⟨answer, hanswer⟩
      obtain ⟨elapsed, heq⟩ := hnext _ hanswer
      cases heq
    · intro hturn
      rw [Option.some.inj hturn] at hchoice
      exact absurd rfl hchoice
  · constructor
    · rintro ⟨answer, hanswer⟩
      obtain ⟨elapsed, heq⟩ := hnext _ hanswer
      cases heq
    · rintro ⟨elapsed, hturn, -⟩
      exact absurd (Option.some.inj hturn) (hlooked elapsed)
  · intro elapsed hturn
    exact absurd (Option.some.inj hturn) (hlooked elapsed)

theorem link_over {elapsed : Int} (h : c.durationMs ≤ elapsed) :
    Link c (some (.looked elapsed)) none := by
  constructor
  · simp
  · simp
  · simpa using h
  · simp

theorem link_selected {elapsed : Int} (h : elapsed < c.durationMs)
    (answer : Outcome (Option Kind)) :
    Link c (some (.looked elapsed)) (some (.selected answer)) := by
  constructor
  · simp
  · simp
  · simpa using h
  · simpa using h

theorem link_ran (kind : Kind) (answer : Outcome (List Record)) :
    Link c (some (.selected (.ok (some kind)))) (some (.ran kind answer)) := by
  constructor <;> simp

theorem link_paused {answer : Outcome (List Record)} (kind : Kind) (h : hasReturned answer)
    (hpause : c.pause.isSome) (rest : Outcome (List Record)) :
    Link c (some (.ran kind answer)) (some (.paused rest)) := by
  constructor
  · exact ⟨fun _ => ⟨hpause, kind, answer, rfl, h⟩, fun _ => ⟨rest, rfl⟩⟩
  · simp
  · simp
  · simp

theorem IsRounds.head?_eq (h : IsRounds c turns ending) :
    ∃ elapsed, turns.head? = some (.looked elapsed) := by
  cases h with
  | timeout elapsed => exact ⟨elapsed, rfl⟩
  | stop elapsed => exact ⟨elapsed, rfl⟩
  | again elapsed => exact ⟨elapsed, rfl⟩

theorem IsRounds.isBreak (h : IsRounds c turns ending) : IsBreak turns.head? := by
  obtain ⟨elapsed, hhead⟩ := h.head?_eq
  intro turn hturn
  rw [hhead] at hturn
  exact ⟨elapsed, (Option.some.inj hturn).symm⟩

theorem IsRound.linked {next : Next} (h : IsRound c turns next) {rest : List Turn}
    (hrest : Linked c rest) (hbreak : IsBreak rest.head?) :
    Linked c (turns ++ rest) ∧ ∃ answer, (turns ++ rest).head? = some (.selected answer) := by
  cases h with
  | unselected fault =>
      refine ⟨linked_cons.mpr ⟨?_, hrest⟩, _, rfl⟩
      exact link_break hbreak (by simp) (by simp [Turn.isChoice]) (by simp)
  | exhausted =>
      refine ⟨linked_cons.mpr ⟨?_, hrest⟩, _, rfl⟩
      exact link_break hbreak (by simp) (by simp [Turn.isChoice]) (by simp)
  | failed kind answer h =>
      refine ⟨linked_cons.mpr ⟨link_ran kind answer, linked_cons.mpr ⟨?_, hrest⟩⟩, _, rfl⟩
      exact link_break hbreak (by simp) (by simp [Turn.isChoice]) (by simp [h])
  | unpaused kind answer h hpause =>
      refine ⟨linked_cons.mpr ⟨link_ran kind answer, linked_cons.mpr ⟨?_, hrest⟩⟩, _, rfl⟩
      exact link_break hbreak (by simp) (by simp [Turn.isChoice]) fun _ _ _ _ => hpause
  | restless kind answer pause h hpause =>
      refine ⟨linked_cons.mpr ⟨link_ran kind answer, linked_cons.mpr
        ⟨link_paused kind h hpause pause, linked_cons.mpr ⟨?_, hrest⟩⟩⟩, _, rfl⟩
      exact link_break hbreak (by simp) (by simp [Turn.isChoice]) (by simp)
  | paused kind answer pause h hpause =>
      refine ⟨linked_cons.mpr ⟨link_ran kind answer, linked_cons.mpr
        ⟨link_paused kind h hpause pause, linked_cons.mpr ⟨?_, hrest⟩⟩⟩, _, rfl⟩
      exact link_break hbreak (by simp) (by simp [Turn.isChoice]) (by simp)

theorem IsRounds.linked (h : IsRounds c turns ending) : Linked c turns := by
  induction h with
  | timeout elapsed h => exact linked_cons.mpr ⟨link_over h, linked_nil⟩
  | stop elapsed h turns ending hround =>
      obtain ⟨hlinked, answer, hhead⟩ := hround.linked linked_nil (by simp [IsBreak])
      rw [List.append_nil] at hlinked hhead
      refine linked_cons.mpr ⟨?_, hlinked⟩
      rw [hhead]
      exact link_selected h answer
  | again elapsed h turns rest ending hround hrest ih =>
      obtain ⟨hlinked, answer, hhead⟩ := hround.linked ih hrest.isBreak
      refine linked_cons.mpr ⟨?_, hlinked⟩
      rw [hhead]
      exact link_selected h answer

theorem afterFailure_eq_stop_iff :
    afterFailure c = .stop ending ↔ c.exitOnError ∧ ending = .aborted := by
  rw [afterFailure]
  split
  · rename_i hexit
    simp [hexit, eq_comm]
  · rename_i hexit
    simp [hexit]

theorem IsRound.aborted_iff {next : Next} (h : IsRound c turns next) :
    next = .stop .aborted ↔
      c.exitOnError ∧ (turns.filterMap Turn.hasFailed?).getLast? = some true := by
  cases h <;> simp_all [afterFailure_eq_stop_iff, Turn.hasFailed?]

theorem IsRounds.aborted_iff (h : IsRounds c turns ending) :
    ending = .aborted ↔
      c.exitOnError ∧ (turns.filterMap Turn.hasFailed?).getLast? = some true := by
  induction h with
  | timeout elapsed => simp [Turn.hasFailed?]
  | stop elapsed h turns ending hround =>
      rw [List.filterMap_cons_none rfl, ← hround.aborted_iff, Next.stop.injEq]
  | again elapsed h turns rest ending hround hrest ih =>
      have hgoes := hround.aborted_iff.not.mp (by simp)
      rw [List.filterMap_cons_none rfl, List.filterMap_append, List.getLast?_append,
        Option.or_eq_some_iff, ih]
      constructor
      · rintro ⟨hexit, hlast⟩
        exact ⟨hexit, Or.inl hlast⟩
      · rintro ⟨hexit, hlast | ⟨-, hlast⟩⟩
        · exact ⟨hexit, hlast⟩
        · exact absurd ⟨hexit, hlast⟩ hgoes

end Order

theorem tells_runWith (policy : Policy τ ρ) (limit : Nat) (c : Settings 𝕜) (key value : String) :
    Tells (runWith policy limit c key value : Course σ ρ Ending) fun ending turns records =>
      IsRounds c turns ending ∧ ∃ ms, records = turns.flatMap Turn.sent ++
        [.long opType Measurement.opCount (turns.countP Turn.isChoice),
          .long opType Measurement.timeTaken ms] := by
  apply Tells.bind_silent (Course.addsOnly_note ⟨rfl, rfl⟩)
  intro _
  apply Tells.bind_now
  intro start
  apply (tells_loop policy limit c start limit (Progress.start policy)).bind
  rintro ⟨ending, p⟩ turns records ⟨hrounds, rfl, hoperations⟩
  apply Tells.bind_elapsed
  intro ms
  apply Tells.bind_emitted
  apply Tells.bind_emitted
  apply Tells.bind_silent (Course.addsOnly_note ⟨rfl, rfl⟩)
  intro _
  apply tells_pure
  rw [List.append_nil]
  refine ⟨hrounds, ms, ?_⟩
  rw [hoperations, Progress.start, Nat.zero_add]

/-- Before the run, the journal is empty: what the run adds to it are all its events. -/
theorem post_of_run {policy : Policy τ ρ} {limit : Nat} {c : Settings 𝕜} {key value : String}
    {world : σ} {random : ρ} {a : Account σ} {post : Ending → List Event → Prop}
    (hadds : (runWith policy limit c key value : Course σ ρ Ending).Adds post)
    (h : accountWith policy limit c key value world random = some a) :
    post a.ending a.events := by
  obtain ⟨⟨ending, s⟩, hrun, rfl⟩ := Option.map_eq_some_iff.mp h
  obtain ⟨events, hjournal, hpost⟩ := hadds _ _ _ hrun
  have hevents : s.journal.reverse = events := by
    rw [hjournal, List.append_nil, List.reverse_reverse]
  rwa [← hevents] at hpost

/-- Surroundings in which every call is answered with yes and takes a millisecond. -/
structure Obliging where
  clock : Int

instance : Surroundings Obliging where
  call _ world := some (.ok .yes, ⟨world.clock + 1⟩)
  now world := (world.clock, world)
  sleep ms world := (.ok (), ⟨world.clock + ms⟩)

def plain : Settings Nat where
  durationMs := 1000
  seed := none
  pause := none
  exitOnError := false
  totalOps := none
  operations := []
  baseDir := "/base"
  fileCount := 4
  dirSize := 2
  blockSize := ⟨1, 1, Int.le_refl 1⟩
  writeSize := ⟨1, 1, Int.le_refl 1⟩
  appendSize := ⟨1, 1, Int.le_refl 1⟩
  readSize := ⟨1, 1, Int.le_refl 1⟩
  replication := ⟨1, 1, Int.le_refl 1⟩
  pollMs := 10
  timeoutMs := 100
  workers := 1
  resultFile := none

/-- Surroundings in which every call is answered with a number that is too long for a text, and
takes a millisecond. -/
structure Lavish where
  clock : Int

instance : Surroundings Lavish where
  call _ world := some (.ok (.int (10 ^ digitLimit : Nat)), ⟨world.clock + 1⟩)
  now world := (world.clock, world)
  sleep ms world := (.ok (), ⟨world.clock + ms⟩)

end Worker

end StorageLoad
