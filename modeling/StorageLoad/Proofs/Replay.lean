import StorageLoad.Proofs.Attempt
import StorageLoad.Proofs.Opening

/-!
Runs from one source of random numbers.  Selections at constant weights and the openings of
operations depend on the source alone, so two runs from the same source run the same operations
with the same first calls, as far as both go, whatever they are answered and whatever time it
takes (`openings_agree`).
-/

namespace StorageLoad

/-- The operations that were run, each with its first call, where a first call may already be
known. -/
def openingsFrom (first : Option Request) : List Event → List (Kind × Option Request)
  | [] => []
  | .asked request :: rest => openingsFrom (first.or (some request)) rest
  | .turned (.ran kind _) :: rest => (kind, first) :: openingsFrom none rest
  | .turned _ :: rest => openingsFrom none rest
  | _ :: rest => openingsFrom first rest

/-- Whether an operation was run. -/
def Turn.isRun : Turn → Bool
  | ran .. => true
  | _ => false

namespace Worker

/-- The operations of a run, each with its first call. -/
def Account.openings {σ : Type} (a : Account σ) : List (Kind × Option Request) :=
  openingsFrom none a.events

/-- Operations with first calls that a policy and a source of random numbers bring about, one
after the other, whatever the operations are answered. -/
inductive Unfolds {τ ρ 𝕜 : Type} [RandomSource ρ] (policy : Policy τ ρ) (c : Settings 𝕜) :
    τ → ρ → List (Kind × Option Request) → Prop
  | nil (m : τ) (r : ρ) : Unfolds policy c m r []
  | skip {m m' : τ} {r r' : ρ} {answer : Outcome (Option Kind)}
      {rest : List (Kind × Option Request)} (h : policy.choose 0 0 m r = (answer, m', r'))
      (hnone : ∀ kind, answer ≠ .ok (some kind)) (hrest : Unfolds policy c m' r' rest) :
      Unfolds policy c m r rest
  | step {m m' : τ} {r r' : ρ} {kind : Kind} {rest : List (Kind × Option Request)}
      (h : policy.choose 0 0 m r = (.ok (some kind), m', r'))
      (hrest : Unfolds policy c m' (Operation.openingOf c kind r').2 rest) :
      Unfolds policy c m r ((kind, (Operation.openingOf c kind r').1) :: rest)

theorem Unfolds.prefix_or_prefix {τ ρ 𝕜 : Type} [RandomSource ρ] {policy : Policy τ ρ}
    {c : Settings 𝕜} {m : τ} {r : ρ} {o o' : List (Kind × Option Request)}
    (h : Unfolds policy c m r o) (h' : Unfolds policy c m r o') :
    o <+: o' ∨ o' <+: o := by
  induction h generalizing o' with
  | nil m r => exact Or.inl (List.nil_prefix)
  | skip h hnone hrest ih =>
      cases h' with
      | nil => exact Or.inr (List.nil_prefix)
      | skip h₁ hnone₁ hrest₁ =>
          obtain ⟨-, heq⟩ := Prod.mk.inj (h.symm.trans h₁)
          obtain ⟨rfl, rfl⟩ := Prod.mk.inj heq
          exact ih hrest₁
      | step h₁ hrest₁ =>
          obtain ⟨heq, -⟩ := Prod.mk.inj (h.symm.trans h₁)
          exact absurd heq (hnone _)
  | step h hrest ih =>
      cases h' with
      | nil => exact Or.inr (List.nil_prefix)
      | skip h₁ hnone₁ hrest₁ =>
          obtain ⟨heq, -⟩ := Prod.mk.inj (h₁.symm.trans h)
          exact absurd heq (hnone₁ _)
      | step h₁ hrest₁ =>
          obtain ⟨hkind, heq⟩ := Prod.mk.inj (h.symm.trans h₁)
          obtain rfl := Option.some.inj (Except.ok.inj hkind)
          obtain ⟨rfl, rfl⟩ := Prod.mk.inj heq
          simpa only [List.cons_prefix_cons, true_and] using ih hrest₁

variable {σ ρ τ 𝕜 α β : Type} {events rest : List Event} {o : List (Kind × Option Request)}

section Events

/-- An event that neither is a call nor says that an operation was run. -/
def IsPassing (e : Event) : Prop :=
  e.call? = none ∧ ∀ kind answer, e ≠ .turned (.ran kind answer)

theorem openingsFrom_passing (h : ∀ e ∈ events, IsPassing e) (rest : List Event) :
    openingsFrom none (events ++ rest) = openingsFrom none rest := by
  induction events with
  | nil => rfl
  | cons e events ih =>
      obtain ⟨⟨hcall, hran⟩, hevents⟩ := List.forall_mem_cons.mp h
      cases e with
      | asked request => cases hcall
      | turned turn =>
          cases turn with
          | ran kind answer => exact absurd rfl (hran kind answer)
          | _ => exact ih hevents
      | _ => exact ih hevents

theorem openingsFrom_ran (h : ∀ e ∈ events, e.IsOfOperation) (first : Option Request)
    (kind : Kind) (answer : Outcome (List Record)) (rest : List Event) :
    openingsFrom first (events ++ .turned (.ran kind answer) :: rest) =
      (kind, first.or (events.filterMap Event.call?).head?) :: openingsFrom none rest := by
  induction events generalizing first with
  | nil => simp [openingsFrom]
  | cons e events ih =>
      obtain ⟨he, hevents⟩ := List.forall_mem_cons.mp h
      cases e with
      | asked request =>
          rw [List.cons_append, openingsFrom, ih hevents,
            List.filterMap_cons_some (f := Event.call?) rfl, List.head?_cons, Option.or_assoc,
            Option.some_or]
      | slept ms => exact ih hevents first
      | settled path replicas ms => exact ih hevents first
      | _ => exact he.elim

theorem length_openingsFrom (first : Option Request) (events : List Event) :
    (openingsFrom first events).length = (events.filterMap Event.turn?).countP Turn.isRun := by
  induction events generalizing first with
  | nil => rfl
  | cons e events ih =>
      cases e with
      | turned turn =>
          rw [List.filterMap_cons_some (f := Event.turn?) rfl, List.countP_cons, ← ih none]
          cases turn <;> rfl
      | _ => exact ih _

theorem IsRound.countP_isChoice {c : Settings 𝕜} {turns : List Turn} {next : Next}
    (h : IsRound c turns next) : turns.countP Turn.isChoice = turns.countP Turn.isRun := by
  cases h <;> rfl

theorem IsRounds.countP_isChoice {c : Settings 𝕜} {turns : List Turn} {ending : Ending}
    (h : IsRounds c turns ending) : turns.countP Turn.isChoice = turns.countP Turn.isRun := by
  induction h with
  | timeout elapsed => rfl
  | stop elapsed h turns ending hround => exact hround.countP_isChoice
  | again elapsed h turns rest ending hround hrest ih =>
      change (turns ++ rest).countP Turn.isChoice = (turns ++ rest).countP Turn.isRun
      rw [List.countP_append, List.countP_append, hround.countP_isChoice, ih]

end Events

section Courses

/-- If the course ends, it has drawn nothing, and called and run nothing. -/
structure Passes (course : Course σ ρ α) : Prop where
  still : course.Still
  adds : course.AddsOnly IsPassing

theorem passes_pure (a : α) : Passes (pure a : Course σ ρ α) :=
  ⟨Course.still_pure a, Course.addsOnly_pure a⟩

theorem passes_note {e : Event} (h : IsPassing e) : Passes (Course.note e : Course σ ρ Unit) :=
  ⟨Course.still_note e, Course.addsOnly_note h⟩

theorem Passes.bind {course : Course σ ρ α} {next : α → Course σ ρ β} (h : Passes course)
    (hnext : ∀ a, Passes (next a)) : Passes (course >>= next) :=
  ⟨h.still.bind fun a => (hnext a).still, h.adds.bind fun a => (hnext a).adds⟩

theorem passes_emitAll (outputs : List Record) :
    Passes (outputs.forM emit : Action σ ρ Unit).run := by
  induction outputs with
  | nil => exact passes_pure _
  | cons output outputs ih =>
      rw [run_emitAll_cons]
      cases output.text with
      | error fault => exact passes_pure _
      | ok text => exact (passes_note ⟨rfl, by simp⟩).bind fun _ => ih

/-- If the course ends, it has run an operation that opened as told. -/
def Makes (kind : Kind) (opening : Opening ρ) (course : Course σ ρ α) : Prop :=
  ∀ s a s', course s = some (a, s') →
    ∃ events : List Event, s'.journal = events.reverse ++ s.journal ∧
      (∀ rest, openingsFrom none (events ++ rest) =
        (kind, (opening s.random).1) :: openingsFrom none rest) ∧
      s'.random = (opening s.random).2

variable {kind : Kind} {opening : Opening ρ}

theorem Makes.after {course : Course σ ρ α} {next : α → Course σ ρ β} (h : Passes course)
    (hnext : ∀ a, Makes kind opening (next a)) : Makes kind opening (course >>= next) := by
  intro s b s'' hs
  obtain ⟨⟨a, s'⟩, hfirst, hrest⟩ := Option.bind_eq_some_iff.mp hs
  obtain ⟨first, hjournal, hpassing⟩ := h.adds s a s' hfirst
  obtain ⟨rest, hjournal', hopenings, hrandom⟩ := hnext a s' b s'' hrest
  rw [(h.still s a s' hfirst).1] at hopenings hrandom
  refine ⟨first ++ rest, ?_, ?_, hrandom⟩
  · rw [hjournal', hjournal, List.reverse_append, List.append_assoc]
  · intro after
    rw [List.append_assoc, openingsFrom_passing hpassing, hopenings]

theorem Makes.before {course : Course σ ρ α} {next : α → Course σ ρ β}
    (h : Makes kind opening course) (hnext : ∀ a, Passes (next a)) :
    Makes kind opening (course >>= next) := by
  intro s b s'' hs
  obtain ⟨⟨a, s'⟩, hfirst, hrest⟩ := Option.bind_eq_some_iff.mp hs
  obtain ⟨first, hjournal, hopenings, hrandom⟩ := h s a s' hfirst
  obtain ⟨rest, hjournal', hpassing⟩ := (hnext a).adds s' b s'' hrest
  refine ⟨first ++ rest, ?_, ?_, ?_⟩
  · rw [hjournal', hjournal, List.reverse_append, List.append_assoc]
  · intro after
    rw [List.append_assoc, hopenings, openingsFrom_passing hpassing]
  · rw [((hnext a).still s' b s'' hrest).1]
    exact hrandom

theorem makes_turned {course : Course σ ρ (Outcome (List Record))} (h : course.Opens opening)
    (hown : course.AddsOnly Event.IsOfOperation) {next : Outcome (List Record) → Course σ ρ β}
    (hnext : ∀ answer, Passes (next answer)) :
    Makes kind opening
      (course >>= fun answer => Course.note (.turned (.ran kind answer)) >>= fun _ =>
        next answer) := by
  intro s b s'' hs
  obtain ⟨⟨answer, s'⟩, hfirst, hrest⟩ := Option.bind_eq_some_iff.mp hs
  obtain ⟨events, hjournal, hopening, hrandom⟩ := h s answer s' hfirst
  obtain ⟨events', hjournal', hevents⟩ := hown s answer s' hfirst
  obtain rfl : events = events' := by
    rw [hjournal] at hjournal'
    exact List.reverse_injective (List.append_cancel_right hjournal')
  let turned : Scene σ ρ := { s' with journal := .turned (.ran kind answer) :: s'.journal }
  obtain ⟨rest, hrests, hpassing⟩ := (hnext answer).adds turned b s'' hrest
  refine ⟨events ++ .turned (.ran kind answer) :: rest, ?_, ?_, ?_⟩
  · rw [hrests, List.reverse_append, List.reverse_cons, List.append_assoc, List.append_assoc,
      ← hjournal]
    rfl
  · intro after
    rw [List.append_assoc, List.cons_append, openingsFrom_ran hevents, Option.none_or, hopening,
      openingsFrom_passing hpassing]
  · rw [((hnext answer).still turned b s'' hrest).1]
    exact hrandom

variable [RandomSource ρ] [Surroundings σ]

omit [RandomSource ρ] in
theorem passes_elapsed (start : Int) : Passes (Course.elapsed start : Course σ ρ Int) :=
  ⟨Course.still_elapsed start, (Course.adds_elapsed start).addsOnly fun _ _ h => h⟩

omit [RandomSource ρ] in
theorem passes_now : Passes (Course.now : Course σ ρ Int) :=
  ⟨Course.still_now, Course.adds_now.addsOnly fun _ _ h => h⟩

theorem makes_attempt (polls : Nat) {c : Settings 𝕜} (hpause : c.pause.isNone) (number : Nat)
    (kind : Kind) :
    Makes kind (Operation.openingOf c kind)
      (attempt polls c (.ran kind) number kind : Action σ ρ Unit).run := by
  rw [run_attempt]
  refine Makes.after (passes_note ⟨rfl, by simp⟩) fun _ => Makes.after passes_now fun start => ?_
  apply makes_turned (Operation.opens_run polls c kind fun _ => hpause)
    (Operation.addsOnly_run polls c kind)
  intro answer
  cases answer with
  | error fault => exact passes_pure _
  | ok outputs =>
      exact (passes_elapsed start).bind fun time => (passes_note ⟨rfl, by simp⟩).bind fun _ =>
        passes_emitAll outputs

end Courses

section Runs

/-- Whether a policy heeds no time, but for times with which it fails and stays as it is. -/
def Policy.IsUntimed (policy : Policy τ ρ) : Prop :=
  ∀ elapsed duration m r, policy.choose elapsed duration m r = policy.choose 0 0 m r ∨
    ∃ fault, policy.choose elapsed duration m r = (.error fault, m, r)

variable [RandomSource ρ] {policy : Policy τ ρ} {c : Settings 𝕜} {m m' : τ} {r r' : ρ}
  {elapsed duration : Int}

theorem Unfolds.of_none (h : policy.IsUntimed) {answer : Outcome (Option Kind)}
    (hchoice : policy.choose elapsed duration m r = (answer, m', r'))
    (hnone : ∀ kind, answer ≠ .ok (some kind)) (ho : Unfolds policy c m' r' o) :
    Unfolds policy c m r o := by
  rcases h elapsed duration m r with heq | ⟨fault, heq⟩
  · exact .skip (heq.symm.trans hchoice) hnone ho
  · obtain ⟨-, hsame⟩ := Prod.mk.inj (heq.symm.trans hchoice)
    obtain ⟨rfl, rfl⟩ := Prod.mk.inj hsame
    exact ho

theorem Unfolds.of_some (h : policy.IsUntimed) {kind : Kind}
    (hchoice : policy.choose elapsed duration m r = (.ok (some kind), m', r'))
    (ho : Unfolds policy c m' (Operation.openingOf c kind r').2 o) :
    Unfolds policy c m r ((kind, (Operation.openingOf c kind r').1) :: o) := by
  rcases h elapsed duration m r with heq | ⟨fault, heq⟩
  · exact .step (heq.symm.trans hchoice) ho
  · obtain ⟨hfault, -⟩ := Prod.mk.inj (heq.symm.trans hchoice)
    cases hfault

/-- If the course ends, what it makes known comes first of what a policy and a source bring about,
and what they bring about from there on comes after. -/
def Replays (policy : Policy τ ρ) (c : Settings 𝕜) (m : τ) (memory : α → τ)
    (course : Course σ ρ α) :
    Prop :=
  ∀ s a s', course s = some (a, s') →
    ∃ (events : List Event) (o : List (Kind × Option Request)),
      s'.journal = events.reverse ++ s.journal ∧
      (∀ rest, openingsFrom none (events ++ rest) = o ++ openingsFrom none rest) ∧
      ∀ rest, Unfolds policy c (memory a) s'.random rest → Unfolds policy c m s.random (o ++ rest)

theorem Passes.replays {course : Course σ ρ α} {memory : α → τ} (h : Passes course)
    (hmemory : course.Adds fun a _ => memory a = m) : Replays policy c m memory course := by
  intro s a s' hs
  obtain ⟨events, hjournal, hpassing⟩ := h.adds s a s' hs
  obtain ⟨-, -, hsame⟩ := hmemory s a s' hs
  refine ⟨events, [], hjournal, openingsFrom_passing hpassing, ?_⟩
  rw [(h.still s a s' hs).1, hsame]
  exact fun _ ho => ho

theorem Replays.bind {course : Course σ ρ α} {next : α → Course σ ρ β} {memory : α → τ}
    {memory' : β → τ} (h : Replays policy c m memory course)
    (hnext : ∀ a, Replays policy c (memory a) memory' (next a)) :
    Replays policy c m memory' (course >>= next) := by
  intro s b s'' hs
  obtain ⟨⟨a, s'⟩, hfirst, hrest⟩ := Option.bind_eq_some_iff.mp hs
  obtain ⟨first, o, hjournal, hopenings, hunfolds⟩ := h s a s' hfirst
  obtain ⟨rest, o', hjournal', hopenings', hunfolds'⟩ := hnext a s' b s'' hrest
  refine ⟨first ++ rest, o ++ o', ?_, ?_, ?_⟩
  · rw [hjournal', hjournal, List.reverse_append, List.append_assoc]
  · intro after
    rw [List.append_assoc, hopenings, hopenings', List.append_assoc]
  · intro after hafter
    rw [List.append_assoc]
    exact hunfolds _ (hunfolds' after hafter)

theorem Passes.then {course : Course σ ρ α} {next : α → Course σ ρ β} {memory : β → τ}
    (h : Passes course) (hnext : ∀ a, Replays policy c m memory (next a)) :
    Replays policy c m memory (course >>= next) := by
  have hfirst : Replays policy c m (fun _ => m) course := h.replays (h.adds.mono fun _ _ _ => rfl)
  exact hfirst.bind hnext

omit [RandomSource ρ] in
theorem choose_of_select {answer : Outcome (Option Kind)} {s s' : Scene σ ρ}
    (h : Worker.select policy c m elapsed s = some ((answer, m'), s')) :
    policy.choose elapsed c.durationMs m s.random = (answer, m', s'.random) ∧
      s'.journal = .turned (.selected answer) :: s.journal := by
  obtain ⟨hanswer, rfl⟩ := Prod.mk.inj (Option.some.inj h)
  obtain ⟨rfl, rfl⟩ := Prod.mk.inj hanswer
  exact ⟨rfl, rfl⟩

theorem Replays.select (h : policy.IsUntimed) {next : Outcome (Option Kind) × τ → Course σ ρ β}
    {memory : β → τ} (elapsed : Int)
    (hnone : ∀ answer m', (∀ kind, answer ≠ .ok (some kind)) →
      Replays policy c m' memory (next (answer, m')))
    (hsome : ∀ kind m', Makes kind (Operation.openingOf c kind) (next (.ok (some kind), m')) ∧
      (next (.ok (some kind), m')).Adds fun b _ => memory b = m') :
    Replays policy c m memory (Worker.select policy c m elapsed >>= next) := by
  intro s b s'' hs
  obtain ⟨⟨answer, m'⟩, s', hfirst, hrest⟩ := Course.exists_of_bind hs
  obtain ⟨hchoice, hselected⟩ := choose_of_select hfirst
  by_cases hkind : ∃ kind, answer = .ok (some kind)
  · obtain ⟨kind, rfl⟩ := hkind
    obtain ⟨hmakes, hmemory⟩ := hsome kind m'
    obtain ⟨events, hjournal, hopenings, hrandom⟩ := hmakes s' b s'' hrest
    obtain ⟨-, -, hsame⟩ := hmemory s' b s'' hrest
    refine ⟨.turned (.selected (.ok (some kind))) :: events,
      [(kind, (Operation.openingOf c kind s'.random).1)], ?_, hopenings, ?_⟩
    · rw [hjournal, hselected, List.reverse_cons, List.append_assoc]
      rfl
    · intro rest ho
      rw [hrandom, hsame] at ho
      exact Unfolds.of_some h hchoice ho
  · have hne : ∀ kind, answer ≠ .ok (some kind) := fun kind heq => hkind ⟨kind, heq⟩
    obtain ⟨events, o, hjournal, hopenings, hunfolds⟩ := hnone answer m' hne s' b s'' hrest
    refine ⟨.turned (.selected answer) :: events, o, ?_, hopenings, ?_⟩
    · rw [hjournal, hselected, List.reverse_cons, List.append_assoc]
      rfl
    · intro rest ho
      exact Unfolds.of_none h hchoice hne (hunfolds rest ho)

variable [Surroundings σ]

omit [RandomSource ρ] [Surroundings σ] in
theorem passes_recover (p : Progress τ) (kind : Option Kind) (fault : Fault) :
    Passes (recover c p kind fault : Course σ ρ (Next × Progress τ)) :=
  (passes_note ⟨rfl, by simp⟩).bind fun _ => passes_pure _

omit [RandomSource ρ] [Surroundings σ] in
theorem memory_pure {γ : Type} (next : γ) (p : Progress τ) :
    (pure (next, p) : Course σ ρ (γ × Progress τ)).Adds fun result _ =>
    result.2.memory = p.memory := by
  apply (Course.adds_pure _).mono
  rintro _ _ ⟨rfl, rfl⟩
  rfl

omit [RandomSource ρ] [Surroundings σ] in
theorem memory_recover (p : Progress τ) (kind : Option Kind) (fault : Fault) :
    (recover c p kind fault : Course σ ρ (Next × Progress τ)).Adds fun result _ =>
      result.2.memory = p.memory := by
  apply Course.Adds.bind (Course.adds_note _)
  rintro ⟨⟩ _ rfl
  exact memory_pure _ _

theorem replays_round (h : policy.IsUntimed) (hpause : c.pause.isNone) (polls : Nat) (start : Int)
    (p : Progress τ) :
    Replays policy c p.memory (fun result => result.2.memory)
      (round policy polls c start p : Course σ ρ (Next × Progress τ)) := by
  apply Passes.then (passes_note ⟨rfl, by simp⟩)
  intro _
  apply Passes.then (passes_elapsed start)
  intro elapsed
  apply Replays.select h elapsed
  · intro answer m' hnone
    cases answer with
    | error fault => exact (passes_recover _ none fault).replays (memory_recover _ none fault)
    | ok choice =>
        cases choice with
        | none => exact (passes_pure _).replays (memory_pure _ _)
        | some kind => exact absurd rfl (hnone kind)
  · intro kind m'
    constructor
    · apply (makes_attempt polls hpause (p.operations + 1) kind).before
      intro result
      cases result with
      | error fault => exact passes_recover _ (some kind) fault
      | ok =>
          dsimp only
          rw [if_pos hpause]
          exact passes_pure _
    · -- What the attempt tells is of no matter here, only what the policy remembers after it.
      apply Course.Adds.bind (tells_attempt polls c (.ran kind) (p.operations + 1) kind)
      intro result first _
      cases result with
      | error fault => exact memory_recover _ (some kind) fault
      | ok =>
          dsimp only
          rw [if_pos hpause]
          exact memory_pure _ _

theorem replays_loop (h : policy.IsUntimed) (hpause : c.pause.isNone) (polls : Nat) (start : Int)
    (rounds : Nat) (p : Progress τ) :
    Replays policy c p.memory (fun result => result.2.memory)
      (loop policy polls c start rounds p : Course σ ρ (Ending × Progress τ)) := by
  induction rounds generalizing p with
  | zero =>
      intro s result s' hs
      cases hs
  | succ rounds ih =>
      rw [loop]
      apply Passes.then (passes_elapsed start)
      intro elapsed
      apply Passes.then (passes_note ⟨rfl, by simp⟩)
      intro _
      split
      · exact (passes_pure _).replays (memory_pure _ _)
      · apply (replays_round h hpause polls start p).bind
        rintro ⟨next, q⟩
        cases next with
        | stop ending => exact (passes_pure _).replays (memory_pure _ _)
        | again => exact ih q

/-- If the course ends, the openings that it adds are brought about by the policy and the
source. -/
def Brings (policy : Policy τ ρ) (c : Settings 𝕜) (m : τ) (course : Course σ ρ α) : Prop :=
  ∀ s a s', course s = some (a, s') → ∃ events : List Event,
    s'.journal = events.reverse ++ s.journal ∧
    Unfolds policy c m s.random (openingsFrom none events)

omit [Surroundings σ] in
theorem Passes.brings {course : Course σ ρ α} {next : α → Course σ ρ β} (h : Passes course)
    (hnext : ∀ a, Brings policy c m (next a)) : Brings policy c m (course >>= next) := by
  intro s b s'' hs
  obtain ⟨a, s', hfirst, hrest⟩ := Course.exists_of_bind hs
  obtain ⟨first, hjournal, hpassing⟩ := h.adds s a s' hfirst
  obtain ⟨rest, hjournal', hunfolds⟩ := hnext a s' b s'' hrest
  rw [(h.still s a s' hfirst).1] at hunfolds
  refine ⟨first ++ rest, ?_, ?_⟩
  · rw [hjournal', hjournal, List.reverse_append, List.append_assoc]
  · rwa [openingsFrom_passing hpassing]

omit [Surroundings σ] in
theorem Replays.brings {course : Course σ ρ α} {next : α → Course σ ρ β} {memory : α → τ}
    (h : Replays policy c m memory course) (hnext : ∀ a, Passes (next a)) :
    Brings policy c m (course >>= next) := by
  intro s b s'' hs
  obtain ⟨a, s', hfirst, hrest⟩ := Course.exists_of_bind hs
  obtain ⟨first, o, hjournal, hopenings, hunfolds⟩ := h s a s' hfirst
  obtain ⟨rest, hjournal', hpassing⟩ := (hnext a).adds s' b s'' hrest
  have hnone : openingsFrom none rest = [] := by
    have hpassed := openingsFrom_passing hpassing []
    rwa [List.append_nil] at hpassed
  refine ⟨first ++ rest, ?_, ?_⟩
  · rw [hjournal', hjournal, List.reverse_append, List.append_assoc]
  · rw [hopenings, hnone]
    exact hunfolds [] (.nil _ _)

theorem brings_runWith (h : policy.IsUntimed) (hpause : c.pause.isNone) (limit : Nat)
    (key value : String) :
    Brings policy c policy.initial (runWith policy limit c key value : Course σ ρ Ending) := by
  refine (passes_note ⟨rfl, by simp⟩).brings fun _ => passes_now.brings fun start => ?_
  apply (replays_loop h hpause limit start limit (Progress.start policy)).brings
  rintro ⟨ending, p⟩
  refine (passes_elapsed start).bind fun time => ?_
  refine (passes_note ⟨rfl, by simp⟩).bind fun _ => (passes_note ⟨rfl, by simp⟩).bind fun _ => ?_
  exact (passes_note ⟨rfl, by simp⟩).bind fun _ => passes_pure ending

/-- The operations of a run and their first calls are what the policy and the source bring
about. -/
theorem unfolds_of_run (h : policy.IsUntimed) (hpause : c.pause.isNone) {limit : Nat}
    {key value : String} {world : σ} {random : ρ} {a : Account σ}
    (hrun : accountWith policy limit c key value world random = some a) :
    Unfolds policy c policy.initial random a.openings := by
  obtain ⟨⟨ending, s⟩, hcourse, rfl⟩ := Option.map_eq_some_iff.mp hrun
  obtain ⟨events, hjournal, hunfolds⟩ := brings_runWith h hpause limit key value _ _ _ hcourse
  have hevents : s.journal.reverse = events := by
    rw [hjournal, List.append_nil, List.reverse_reverse]
  rwa [← hevents] at hunfolds

theorem length_openings {limit : Nat} {key value : String} {world : σ} {random : ρ}
    {a : Account σ} (hrun : accountWith policy limit c key value world random = some a) :
    Record.total a.records opType Measurement.opCount = a.openings.length := by
  rw [total_opCount_eq_countP hrun, (isRounds_of_run hrun).1.countP_isChoice, Account.openings,
    length_openingsFrom]
  rfl

end Runs

section Weighted

variable {σ₁ σ₂ : Type} [RandomSource ρ] [Surroundings σ₁] [Surroundings σ₂] [Add 𝕜]
  [Sub 𝕜] [Mul 𝕜] [Div 𝕜] [LE 𝕜] [LT 𝕜] [BEq 𝕜] [OfScientific 𝕜] [DecidableLE 𝕜] [DecidableLT 𝕜]
  [Reckoning 𝕜] {c : Settings 𝕜}

omit [LE 𝕜] [DecidableLE 𝕜] [Reckoning 𝕜] in
theorem eligible_of_constant (h : ∀ s ∈ c.operations, ∃ w, s.curve = .constant w) (t : Tally)
    (f f' : 𝕜) : Selector.eligible c.operations t f = Selector.eligible c.operations t f' := by
  apply List.filterMap_congr
  intro s hs
  obtain ⟨w, hw⟩ := h s (List.mem_of_mem_filter hs)
  simp only [Spec.weight, hw, Curve.weight]

theorem select_of_constant (h : ∀ s ∈ c.operations, ∃ w, s.curve = .constant w)
    (t : Tally) (r : ρ) {elapsed duration : Quantity 𝕜} {f : 𝕜}
    (hf : Selector.fraction elapsed duration = .ok f) :
    Selector.select c.operations elapsed duration t r =
      Selector.select c.operations (.whole 0) (.whole 0) t r := by
  have hover : Selector.fraction (.whole 0 : Quantity 𝕜) (.whole 0) = .ok 1.0 := rfl
  have hsame := eligible_of_constant h t f 1.0
  by_cases hnone : Selector.eligible c.operations t f = []
  · rw [Selector.select_of_none hf hnone, Selector.select_of_none hover (hsame ▸ hnone)]
  · rw [Selector.select_of_some hf hnone, Selector.select_of_some hover (hsame ▸ hnone), hsame]

theorem isUntimed_weighted (h : ∀ s ∈ c.operations, ∃ w, s.curve = .constant w) :
    (weighted c : Policy Tally ρ).IsUntimed := by
  intro elapsed duration t r
  cases hf : Selector.fraction (.whole elapsed : Quantity 𝕜) (.whole duration) with
  | error fault =>
      refine Or.inr ⟨fault, ?_⟩
      simp only [weighted, Selector.select_of_fault hf]
  | ok f =>
      apply Or.inl
      simp only [weighted, select_of_constant h t r hf]

/-- Two runs of one configuration with constant weights and no pauses, from the same source of
random numbers, run the same operations in the same order, each with the same first call, as far
as both runs go.  It does not matter what the storage services answer and what the clocks show. -/
theorem openings_agree (c : Settings 𝕜) (random : ρ)
    (hcurves : ∀ s ∈ c.operations, ∃ w, s.curve = .constant w) (hpause : c.pause.isNone)
    {limit₁ limit₂ : Nat} {key₁ key₂ value₁ value₂ : String} {world₁ : σ₁} {world₂ : σ₂}
    {a₁ : Account σ₁} {a₂ : Account σ₂}
    (h₁ : account limit₁ c key₁ value₁ world₁ random = some a₁)
    (h₂ : account limit₂ c key₂ value₂ world₂ random = some a₂) :
    Record.total a₁.records opType Measurement.opCount = a₁.openings.length ∧
      Record.total a₂.records opType Measurement.opCount = a₂.openings.length ∧
      ∀ n < min a₁.openings.length a₂.openings.length, a₁.openings[n]? = a₂.openings[n]? := by
  refine ⟨length_openings h₁, length_openings h₂, ?_⟩
  intro n hn
  have huntimed : (weighted c : Policy Tally ρ).IsUntimed := isUntimed_weighted hcurves
  have hfirst := unfolds_of_run huntimed hpause h₁
  have hsecond := unfolds_of_run huntimed hpause h₂
  rcases hfirst.prefix_or_prefix hsecond with hprefix | hprefix
  · rw [List.prefix_iff_getElem?.mp hprefix n (by omega), List.getElem?_eq_getElem (by omega)]
  · rw [List.prefix_iff_getElem?.mp hprefix n (by omega), List.getElem?_eq_getElem (by omega)]

/-- Surroundings in which every call fails, and takes longer than where all is well. -/
structure Refusing where
  clock : Int

instance : Surroundings Refusing where
  call _ world := some (.error .emptyNamespace, ⟨world.clock + 9⟩)
  now world := (world.clock, world)
  sleep ms world := (.ok (), ⟨world.clock + ms⟩)

/-- A source of words at equal distances. -/
structure Strides where
  word : UInt32

instance : RandomSource Strides where
  next r := (r.word, ⟨r.word + 1234567891⟩)

def mixed : Settings Float :=
  { plain with
    operations :=
      [⟨.rename, 50.0, .constant 1.0, some 3⟩, ⟨.setReplication, 30.0, .constant 1.0, none⟩,
      ⟨.mkdir, 20.0, .constant 1.0, some 2⟩]
    durationMs := 40 }

/-- The run in which every call fails has less time, and runs the first of the same operations. -/
theorem openings_agree_mixed :
    ∃ a₁ a₂, account 60 mixed "k" "v" (⟨0⟩ : Obliging) (⟨7⟩ : Strides) = some a₁ ∧
      account 60 mixed "k" "v" (⟨0⟩ : Refusing) (⟨7⟩ : Strides) = some a₂ ∧
      5 ≤ a₁.openings.length ∧ a₂.openings.length = 5 ∧
      ∀ n < 5, a₁.openings[n]? = a₂.openings[n]? := by
  have hobliging : (account 60 mixed "k" "v" (⟨0⟩ : Obliging) (⟨7⟩ : Strides)).map
      (fun a => decide (5 ≤ a.openings.length)) = some true := by
    decide +kernel
  have hrefusing : (account 60 mixed "k" "v" (⟨0⟩ : Refusing) (⟨7⟩ : Strides)).map
      (fun a => a.openings.length) = some 5 := by
    decide +kernel
  obtain ⟨a₁, h₁, hlong⟩ := Option.map_eq_some_iff.mp hobliging
  obtain ⟨a₂, h₂, hlength⟩ := Option.map_eq_some_iff.mp hrefusing
  have hcurves : ∀ s ∈ mixed.operations, ∃ w, s.curve = .constant w := by
    simp [mixed]
  have hpause : mixed.pause.isNone := rfl
  obtain ⟨-, -, hagree⟩ := openings_agree mixed (⟨7⟩ : Strides) hcurves hpause h₁ h₂
  refine ⟨a₁, a₂, h₁, h₂, of_decide_eq_true hlong, hlength, ?_⟩
  intro n hn
  apply hagree
  have hmore := of_decide_eq_true hlong
  omega

end Weighted

end Worker

end StorageLoad
