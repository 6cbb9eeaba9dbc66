import StorageLoad.Proofs.Attempt
import StorageLoad.Proofs.Config.Curves
import StorageLoad.Proofs.Fraction

/-!
When nothing can be selected any more.  An operation that a moment leaves without weight has none
at a later one either, unless its curve brings the weight back at one of its turns
(`IsSound.pos_of_later`).  So a worker that ends because it finds nothing to select would find
nothing later, but for operations with such a curve (`exhausted_for_good`).
-/

namespace StorageLoad

open Double

/-- What the percentage leaves of the weights at the turns of the curve comes back after it was
gone. -/
def Spec.Revives (s : Spec Float) : Prop :=
  ¬ s.curve.levels.Pairwise fun v w => 0.0 < s.percent * w → 0.0 < s.percent * v

theorem Spec.IsSound.pos_of_later {s : Spec Float} (h : s.IsSound) (hrevives : ¬ s.Revives)
    {x y : Float} (hx : IsFraction x) (hy : IsFraction y) (hxy : x ≤ y)
    (hlater : 0.0 < s.weight y) :
    0.0 < s.weight x :=
  h.curve.of_later (P := fun w => 0.0 < s.percent * w)
    (mul_pos_of_le ((isFinite_iff s.percent).mp h.percent.isFinite) h.percent.isAmount) hx hy hxy
    (not_not.mp hrevives) hlater

namespace Selector

/-- An operation below its limit that has a weight again at a later place in the run. -/
structure ComesBack (t : Tally) (x y : Float) (s : Spec Float) : Prop where
  isOpen : isExhausted t s = false
  gone : ¬ 0.0 < s.weight x
  back : 0.0 < s.weight y
  revives : s.Revives

variable {ρ : Type} [RandomSource ρ]

/-- What a later selection gives where an earlier one gave nothing: nothing again, or a fault
where the numbers become too large to be divided, or else an operation that has come back. -/
inductive IsAfterNone (specs : List (Spec Float)) (e later duration : Quantity Float) (t : Tally)
    (r : ρ) : Prop
  | nothing (h : select specs later duration t r = .ok none)
  | unplaced (fault : Fault) (hlarge : IsTooLarge fault)
      (h : select specs later duration t r = .error fault)
  | back (s : Spec Float) (hs : s ∈ specs) (x y : Float) (hx : fraction e duration = .ok x)
      (hy : fraction later duration = .ok y) (hback : ComesBack t x y s) (r' : ρ)
      (h : select specs later duration t r = .ok (some (s.kind, t.add s.kind, r')))

variable {specs : List (Spec Float)} {e later duration : Quantity Float} {t : Tally}

/-- Where no curve brings a weight back, nothing can be selected any more. -/
theorem IsAfterNone.none_or {r : ρ} (h : IsAfterNone specs e later duration t r)
    (hspecs : ∀ s ∈ specs, ¬ s.Revives) :
    select specs later duration t r = .ok none ∨
      ∃ fault, IsTooLarge fault ∧ select specs later duration t r = .error fault := by
  cases h with
  | nothing h => exact Or.inl h
  | unplaced fault hlarge h => exact Or.inr ⟨fault, hlarge, h⟩
  | back s hs x y hx hy hback => exact absurd hback.revives (hspecs s hs)

theorem exists_fraction_of_none {r : ρ} (h : select specs e duration t r = .ok none) :
    ∃ x, fraction e duration = .ok x ∧ eligible specs t x = [] := by
  cases hx : fraction e duration with
  | error fault =>
      rw [select_of_fault hx] at h
      cases h
  | ok x =>
      refine ⟨x, rfl, ?_⟩
      by_contra hsome
      obtain ⟨unit, hunit⟩ := exists_drawUnit r
      obtain ⟨s, hs⟩ := exists_pick hsome unit
      rw [select_of_some hx hsome, hunit] at h
      change Except.ok ((pick (eligible specs t x) unit).map _) = _ at h
      rw [hs] at h
      cases h

theorem isAfterNone_of_none (hspecs : ∀ s ∈ specs, s.IsSound) {r : ρ}
    (hlater : IsLater duration e later) (h : select specs e duration t r = .ok none) (r' : ρ) :
    IsAfterNone specs e later duration t r' := by
  obtain ⟨x, hx, hnone⟩ := exists_fraction_of_none h
  cases hy : fraction later duration with
  | error fault =>
      exact .unplaced fault (isTooLarge_of_fraction hlater hx hy) (select_of_fault hy)
  | ok y =>
      by_cases hsome : eligible specs t y = []
      · exact .nothing (select_of_none hy hsome)
      obtain ⟨unit, hunit⟩ := exists_drawUnit r'
      obtain ⟨s, hs⟩ := exists_pick hsome unit
      obtain ⟨w, hw⟩ := exists_mem_of_pick hs
      obtain ⟨hmem, hopen, hback, -⟩ := mem_eligible_iff.mp hw
      have hgone : ¬ 0.0 < s.weight x := by
        intro hpos
        have hw := mem_eligible_iff.mpr ⟨hmem, hopen, hpos, rfl⟩
        rw [hnone] at hw
        cases hw
      obtain ⟨hxf, hyf, hxy⟩ := fraction_mono hlater hx hy
      have hrevives : s.Revives := by
        by_contra hrevives
        exact hgone ((hspecs s hmem).pos_of_later hrevives hxf hyf hxy hback)
      refine .back s hmem x y hx hy ⟨hopen, hgone, hback, hrevives⟩
        (drawUnit (𝕜 := Float) r').2 ?_
      rw [select_of_some hy hsome, hunit]
      change Except.ok ((pick (eligible specs t y) unit).map _) = _
      rw [hs]
      rfl

end Selector

namespace Worker

open Course

variable {σ ρ 𝕜 : Type}

section Tallies

variable [RandomSource ρ] {c : Settings 𝕜} {policy : Policy Tally ρ}

/-- A policy that counts what it selects. -/
def Policy.Tallies (policy : Policy Tally ρ) : Prop :=
  ∀ elapsed duration t r kind, (policy.choose elapsed duration t r).2.1.count kind =
    t.count kind + if Selector.gives kind (policy.choose elapsed duration t r).1 then 1 else 0

theorem tallies_weighted {c : Settings Float}
    (hready : ∀ s ∈ c.operations, Operation.ready c s.kind = .ok ()) :
    (weighted c : Policy Tally ρ).Tallies := by
  intro elapsed duration t r kind
  cases hselect : Selector.select c.operations (.whole elapsed) (.whole duration) t r with
  | error fault => simp [weighted, hselect, Selector.gives]
  | ok choice =>
      rcases choice with _ | ⟨k, t', r'⟩
      · simp [weighted, hselect, Selector.gives]
      · obtain ⟨rfl, s, hs, rfl, -⟩ := Selector.exists_of_select hselect
        simp only [weighted, hselect]
        rw [hready s hs, Tally.count_add]
        simp [Except.map, Selector.gives, eq_comm]

theorem countP_selected (answer : Outcome (Option Kind)) (kind : Kind) :
    [Turn.selected answer].countP (Turn.selects kind) =
      if Selector.gives kind answer then 1 else 0 := by
  have hsame : Turn.selects kind (.selected answer) = Selector.gives kind answer := by
    cases answer with
    | error fault => rfl
    | ok choice => cases choice <;> rfl
  rw [List.countP_singleton, hsame]

omit [RandomSource ρ] in
theorem tells_draw {α : Type} (f : ρ → α × ρ) :
    Tells (Course.draw f : Course σ ρ α) fun a turns _ => (∃ r, a = (f r).1) ∧ turns = [] := by
  apply (Course.adds_draw f).mono
  rintro a _ ⟨ha, rfl⟩
  exact ⟨ha, rfl⟩

omit [RandomSource ρ] in
theorem tells_choice (policy : Policy Tally ρ) (c : Settings 𝕜) (t : Tally) (elapsed : Int) :
    Tells (select policy c t elapsed : Course σ ρ (Outcome (Option Kind) × Tally))
      fun result turns _ =>
      turns = [.selected result.1] ∧ ∃ r, result.1 = (policy.choose elapsed c.durationMs t r).1 ∧
        result.2 = (policy.choose elapsed c.durationMs t r).2.1 := by
  apply (tells_draw _).bind
  rintro ⟨answer, t'⟩ _ _ ⟨⟨r, heq⟩, rfl⟩
  obtain ⟨hanswer, ht'⟩ := Prod.mk.inj heq
  apply Tells.bind_turn
  exact tells_pure ⟨rfl, r, hanswer, ht'⟩

variable [Surroundings σ]

theorem tells_tally_round (h : policy.Tallies) (polls : Nat) (c : Settings 𝕜) (start : Int)
    (p : Progress Tally) :
    Tells (round policy polls c start p : Course σ ρ (Next × Progress Tally))
      fun result turns _ =>
      ∀ kind, result.2.memory.count kind = p.memory.count kind +
        turns.countP (Turn.selects kind) := by
  apply Tells.bind_silent (Course.addsOnly_note ⟨rfl, rfl⟩)
  intro _
  apply Tells.bind_elapsed
  intro elapsed
  apply (tells_choice policy c p.memory elapsed).bind
  rintro ⟨answer, t⟩ turns records ⟨rfl, r, hanswer, ht⟩
  have hcount : ∀ kind,
      t.count kind = p.memory.count kind + [Turn.selected answer].countP (Turn.selects kind) := by
    intro kind
    have hstep := h elapsed c.durationMs p.memory r kind
    rwa [← hanswer, ← ht, ← countP_selected] at hstep
  cases answer with
  | error fault =>
      apply (tells_recover c _ none fault).mono
      rintro result turns records ⟨rfl, rfl, rfl⟩
      exact hcount
  | ok choice =>
      cases choice with
      | none => exact tells_pure hcount
      | some kind =>
          apply (tells_attempt polls c (.ran kind) (p.operations + 1) kind).bind
          rintro result turns records ⟨outcome, rfl, rfl, -⟩
          cases result with
          | error fault =>
              apply (tells_recover c _ (some kind) fault).mono
              rintro result turns records ⟨rfl, rfl, rfl⟩
              exact hcount
          | ok =>
              dsimp only
              split
              · exact tells_pure hcount
              · apply (tells_attempt polls c .paused (p.pauses + 1) .sleep).bind
                rintro result turns records ⟨rest, rfl, rfl, -⟩
                cases result with
                | error fault =>
                    apply (tells_recover c _ (some .sleep) fault).mono
                    rintro result turns records ⟨rfl, rfl, rfl⟩
                    exact hcount
                | ok => exact tells_pure hcount

theorem tells_tally_loop (h : policy.Tallies) (polls : Nat) (c : Settings 𝕜) (start : Int)
    (rounds : Nat) (p : Progress Tally) :
    Tells (loop policy polls c start rounds p : Course σ ρ (Ending × Progress Tally))
      fun result turns _ =>
      ∀ kind, result.2.memory.count kind = p.memory.count kind +
        turns.countP (Turn.selects kind) := by
  induction rounds generalizing p with
  | zero => exact Course.adds_endless _
  | succ rounds ih =>
      rw [loop]
      apply Tells.bind_elapsed
      intro elapsed
      apply Tells.bind_turn
      split
      · exact tells_pure fun kind => rfl
      · apply (tells_tally_round h polls c start p).bind
        rintro ⟨next, q⟩ turns records hround
        cases next with
        | stop ending =>
            apply tells_pure
            intro kind
            rw [List.append_nil]
            exact hround kind
        | again =>
            apply (ih q).mono
            intro result turns' records' hrest kind
            rw [hrest, hround, List.countP_cons_of_neg (by exact Bool.false_ne_true),
              List.countP_append, Nat.add_assoc]

end Tallies

section Exhausted

variable {τ : Type} [RandomSource ρ] [Surroundings σ] {c : Settings 𝕜} {policy : Policy τ ρ}
  {polls : Nat} {start : Int} {p q : Progress τ} {s s' : Scene σ ρ}

/-- Where a worker finds nothing to select: the time it reads, and that it reads no other after
that. -/
def FindsNothing (policy : Policy τ ρ) (c : Settings 𝕜) (start : Int) (memory : τ)
    (world : σ) : Prop :=
  ∃ w earlier r r', policy.choose (Clock.elapsed start (Surroundings.now w).1)
    c.durationMs earlier r = (.ok none, memory, r') ∧ world = (Surroundings.now w).2

omit [RandomSource ρ] [Surroundings σ] in
theorem ne_exhausted_of_recover {kind : Option Kind} {fault : Fault} {next : Next}
    (h : recover c p kind fault s = some ((next, q), s')) : next ≠ .stop .exhausted := by
  obtain ⟨_, s₁, -, h⟩ := exists_of_bind h
  obtain ⟨hnext, -⟩ := Prod.mk.inj (Option.some.inj h)
  obtain ⟨rfl, -⟩ := Prod.mk.inj hnext
  rw [afterFailure]
  split <;> simp

theorem findsNothing_of_round
    (h : round policy polls c start p s = some ((.stop .exhausted, q), s')) :
    FindsNothing policy c start q.memory s'.world := by
  obtain ⟨_, s₁, hnote, h⟩ := exists_of_bind h
  obtain ⟨elapsed, s₂, helapsed, h⟩ := exists_of_bind h
  obtain ⟨⟨answer, memory⟩, s₃, hselect, h⟩ := exists_of_bind h
  cases answer with
  | error fault => exact absurd rfl (ne_exhausted_of_recover h)
  | ok choice =>
      cases choice with
      | none =>
          obtain ⟨hresult, rfl⟩ := Prod.mk.inj (Option.some.inj h)
          obtain ⟨-, rfl⟩ := Prod.mk.inj hresult
          obtain ⟨-, rfl⟩ := Prod.mk.inj (Option.some.inj hnote)
          obtain ⟨rfl, rfl⟩ := Prod.mk.inj (Option.some.inj helapsed)
          obtain ⟨hchoice, rfl⟩ := Prod.mk.inj (Option.some.inj hselect)
          obtain ⟨hanswer, rfl⟩ := Prod.mk.inj hchoice
          exact ⟨s.world, p.memory, s.random, _, Prod.ext hanswer rfl, rfl⟩
      | some kind =>
          obtain ⟨result, s₄, -, h⟩ := exists_of_bind h
          cases result with
          | error fault => exact absurd rfl (ne_exhausted_of_recover h)
          | ok =>
              dsimp only at h
              split at h
              · cases h
              · obtain ⟨result, s₅, -, h⟩ := exists_of_bind h
                cases result with
                | error fault => exact absurd rfl (ne_exhausted_of_recover h)
                | ok => cases h

theorem findsNothing_of_loop {rounds : Nat}
    (h : loop policy polls c start rounds p s = some ((.exhausted, q), s')) :
    FindsNothing policy c start q.memory s'.world := by
  induction rounds generalizing p s with
  | zero => cases h
  | succ rounds ih =>
      rw [loop] at h
      obtain ⟨elapsed, s₁, -, h⟩ := exists_of_bind h
      obtain ⟨_, s₂, -, h⟩ := exists_of_bind h
      split at h
      · cases h
      · obtain ⟨⟨next, p'⟩, s₃, hround, h⟩ := exists_of_bind h
        cases next with
        | again => exact ih h
        | stop ending =>
            obtain ⟨hresult, rfl⟩ := Prod.mk.inj (Option.some.inj h)
            obtain ⟨rfl, rfl⟩ := Prod.mk.inj hresult
            exact findsNothing_of_round hround

end Exhausted

section Runs

variable [RandomSource ρ] [Surroundings σ]

theorem exists_of_exhausted {c : Settings 𝕜} {policy : Policy Tally ρ} (hpolicy : policy.Tallies)
    {limit : Nat} {key value : String} {world : σ} {random : ρ} {a : Account σ}
    (h : accountWith policy limit c key value world random = some a)
    (hending : a.ending = .exhausted) :
    ∃ t w,
      (∀ kind, t.count kind = policy.initial.count kind + a.turns.countP (Turn.selects kind)) ∧
      FindsNothing policy c (Surroundings.now world).1 t w ∧
      a.world = (Surroundings.now w).2 := by
  obtain ⟨⟨ending, s⟩, hrun, rfl⟩ := Option.map_eq_some_iff.mp h
  obtain ⟨_, s₁, hnote, hrun⟩ := exists_of_bind hrun
  obtain ⟨-, rfl⟩ := Prod.mk.inj (Option.some.inj hnote)
  obtain ⟨start, s₂, hnow, hrun⟩ := exists_of_bind hrun
  obtain ⟨rfl, rfl⟩ := Prod.mk.inj (Option.some.inj hnow)
  obtain ⟨⟨ending', q⟩, s₃, hloop, hrun⟩ := exists_of_bind hrun
  obtain ⟨rfl, rfl⟩ := Prod.mk.inj (Option.some.inj hrun)
  obtain rfl : ending' = .exhausted := hending
  obtain ⟨events, hjournal, hcount⟩ :=
    tells_tally_loop hpolicy limit c _ limit (Progress.start policy) _ _ _ hloop
  refine ⟨q.memory, s₃.world, ?_, findsNothing_of_loop hloop, rfl⟩
  intro kind
  rw [hcount kind]
  simp [Account.turns, hjournal, Event.turn?, Progress.start, List.filterMap_cons]

omit [Surroundings σ] in
theorem select_of_choose_none {c : Settings Float} {elapsed duration : Int}
    {earlier t : Tally} {r r' : ρ}
    (h : (weighted c).choose elapsed duration earlier r = (.ok none, t, r')) :
    Selector.select c.operations (.whole elapsed) (.whole duration) t r = .ok none := by
  cases hselect : Selector.select c.operations (.whole elapsed) (.whole duration) earlier r with
  | error fault =>
      simp only [weighted, hselect] at h
      cases h
  | ok choice =>
      rcases choice with _ | ⟨kind, t', r''⟩
      · simp only [weighted, hselect] at h
        obtain ⟨-, h⟩ := Prod.mk.inj h
        obtain ⟨rfl, -⟩ := Prod.mk.inj h
        exact hselect
      · simp only [weighted, hselect] at h
        obtain ⟨h, -⟩ := Prod.mk.inj h
        cases hready : Operation.ready c kind with
        | error fault =>
            rw [hready] at h
            cases h
        | ok =>
            rw [hready] at h
            cases h

/-- When nothing can be selected, nothing can be later, but for operations below their limits
whose curves bring their weights back.  So a worker that ends exhausted, at whatever time it
reads, has nothing else left that it could have selected at any later time, with the selections
that it has made. -/
theorem exhausted_for_good {options : Options} {c : Settings Float}
    (h : options.settings = .ok c) :
    (∀ (e later duration : Quantity Float) (t : Tally) (r r' : ρ),
      Selector.IsLater duration e later → Selector.select c.operations e duration t r = .ok none →
        Selector.IsAfterNone c.operations e later duration t r') ∧
      ∀ (limit : Nat) (key value : String) (world : σ) (random : ρ) (a : Account σ),
        account limit c key value world random = some a → a.ending = .exhausted →
          ∃ (t : Tally) (w : σ) (elapsed : Int),
            (∀ kind, t.count kind = a.turns.countP (Turn.selects kind)) ∧
            elapsed = Clock.elapsed (Surroundings.now world).1 (Surroundings.now w).1 ∧
            a.world = (Surroundings.now (Surroundings.now w).2).2 ∧
            (∃ r : ρ, Selector.select c.operations
              (.whole elapsed) (.whole c.durationMs) t r = .ok none) ∧
            ∀ later, elapsed ≤ later → ∀ r' : ρ,
              Selector.IsAfterNone c.operations (.whole elapsed) (.whole later)
                (.whole c.durationMs) t r' := by
  have hsound := Options.isSound_of_settings h
  obtain ⟨hwell, -⟩ := Options.isWellFormed_of_settings h
  refine ⟨fun e later duration t r r' hlater hnone =>
    Selector.isAfterNone_of_none hsound hlater hnone r', ?_⟩
  intro limit key value world random a ha hending
  obtain ⟨t, w', hcount, ⟨w, earlier, r, r', hchoose, rfl⟩, hworld⟩ :=
    exists_of_exhausted (tallies_weighted hwell.ready) ha hending
  have hnone := select_of_choose_none hchoose
  refine ⟨t, w, _, fun kind => ?_, rfl, hworld, ⟨r, hnone⟩, fun later hlater r' => ?_⟩
  · exact (hcount kind).trans (Nat.zero_add _)
  · exact Selector.isAfterNone_of_none hsound (.whole hlater) hnone r'

/-- Two directories at most, with a weight that is the greatest in the middle of the run. -/
def midway : Options :=
  [(.text "duration", .int 1),
    (.text "operations", .map [(.text "mkdir", .map [(.text "percent", .int 100),
    (.text "distribution", .text "mid"), (.text "max_count", .int 2)])])]

/-- The worker ends after two milliseconds, and could not have gone on in the middle of the run
either. -/
theorem exhausted_for_good_midway : ∃ c a t, midway.settings = .ok c ∧ c.durationMs = 1000 ∧
    account 3 c "k" "v" (⟨0⟩ : Obliging) (⟨⟩ : Zeros) = some a ∧ a.ending = .exhausted ∧
    t.count .mkdir = 2 ∧ ∀ later : Int, 2 ≤ later → ∀ r : Zeros,
      Selector.select c.operations (.whole later) (.whole 1000) t r = .ok none ∨
        ∃ fault, Selector.IsTooLarge fault ∧
          Selector.select c.operations (.whole later) (.whole 1000) t r = .error fault := by
  have hrun : (midway.settings.toOption.bind fun c =>
      (account 3 c "k" "v" (⟨0⟩ : Obliging) (⟨⟩ : Zeros)).map fun a =>
        (c.durationMs, a.turns.countP (Turn.selects .mkdir), a.ending, a.world.clock,
          c.operations.all fun s =>
            decide (s.curve.levels.Pairwise fun v w => 0.0 < s.percent * w →
              0.0 < s.percent * v))) =
      some (1000, 2, .exhausted, 2, true) := by
    decide +kernel
  obtain ⟨c, hc, hrun⟩ := Option.bind_eq_some_iff.mp hrun
  obtain ⟨a, ha, hfacts⟩ := Option.map_eq_some_iff.mp hrun
  simp only [Prod.mk.injEq, List.all_eq_true, decide_eq_true_eq] at hfacts
  obtain ⟨hduration, hselected, hending, hclock, hsteady⟩ := hfacts
  replace hc := Outcome.eq_ok_of_toOption hc
  obtain ⟨-, hworker⟩ := exhausted_for_good (σ := Obliging) (ρ := Zeros) hc
  obtain ⟨t, w, elapsed, hcount, helapsed, hworld, -, hlater⟩ :=
    hworker 3 "k" "v" ⟨0⟩ ⟨⟩ a ha hending
  rw [hduration] at hlater
  have htwo : elapsed = 2 := by
    rw [hworld] at hclock
    change w.clock = 2 at hclock
    rw [helapsed]
    change max 0 (w.clock - 0) = 2
    rw [hclock]
    rfl
  refine ⟨c, a, t, hc, hduration, ha, hending, (hcount .mkdir).trans hselected,
    fun later hle r => ?_⟩
  exact (hlater later (htwo ▸ hle) r).none_or fun s hs => not_not.mpr (hsteady s hs)

/-- A weight that rises from nothing. -/
def rising : Options :=
  [(.text "duration", .int 1),
    (.text "operations", .map [(.text "mkdir", .map [(.text "percent", .int 100),
    (.text "curve", .list [.list [.int 0, .int 0], .list [.int 1, .int 1]])])])]

/-- A weight that falls to nothing just before the end of the run. -/
def falling : Options :=
  [(.text "operations", .map [(.text "mkdir", .map [(.text "percent", .int 100),
    (.text "curve", .list [.list [.int 0, .int 1], .list [.real 0.9999999999999997, .int 0]])])])]

/-- What is selected at a moment of a run when nothing has been selected before, unless there is a
fault. -/
def firstAt (c : Settings Float) (e duration : Quantity Float) : Option (Option Kind) :=
  (Selector.select c.operations e duration .empty (⟨⟩ : Zeros)).toOption.map fun choice =>
  choice.map (·.1)

/-- A worker ends exhausted at the start of a run in the middle of which it would find something
to select.  A moment that is a double has an earlier place than the same one as a whole number, in
a run whose duration is rounded up. -/
theorem not_exhausted_for_good :
    (∃ c a, rising.settings = .ok c ∧ account 1 c "k" "v" (⟨0⟩ : Obliging) (⟨⟩ : Zeros) = some a ∧
        a.ending = .exhausted ∧ c.durationMs = 1000 ∧
        firstAt c (.whole 0) (.whole 1000) = some none ∧
        firstAt c (.whole 500) (.whole 1000) = some (some .mkdir)) ∧
      ∃ c, falling.settings = .ok c ∧
        firstAt c (.whole 9007199254740992) (.whole 9007199254740995) = some none ∧
        firstAt c (.real 9007199254740992.0) (.whole 9007199254740995) = some (some .mkdir) := by
  have hrising : (rising.settings.toOption.bind fun c =>
      (account 1 c "k" "v" (⟨0⟩ : Obliging) (⟨⟩ : Zeros)).map fun a => (a.ending, c.durationMs,
        firstAt c (.whole 0) (.whole 1000), firstAt c (.whole 500) (.whole 1000))) =
      some (.exhausted, 1000, some none, some (some .mkdir)) := by
    decide +kernel
  have hfalling : (falling.settings.toOption.map fun c =>
      (firstAt c (.whole 9007199254740992) (.whole 9007199254740995),
        firstAt c (.real 9007199254740992.0) (.whole 9007199254740995))) =
      some (some none, some (some .mkdir)) := by
    decide +kernel
  constructor
  · obtain ⟨c, hc, hrun⟩ := Option.bind_eq_some_iff.mp hrising
    obtain ⟨a, ha, hfacts⟩ := Option.map_eq_some_iff.mp hrun
    simp only [Prod.mk.injEq] at hfacts
    exact ⟨c, a, Outcome.eq_ok_of_toOption hc, ha, hfacts⟩
  · obtain ⟨c, hc, hfacts⟩ := Option.map_eq_some_iff.mp hfalling
    exact ⟨c, Outcome.eq_ok_of_toOption hc, Prod.mk.inj hfacts⟩

end Runs

end Worker

end StorageLoad
