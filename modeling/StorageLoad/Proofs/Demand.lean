import StorageLoad.Proofs.Invariant

/-!
What workers ask of a storage service, and in which order.  Whatever they are answered, they call
for files and directories of their namespace only, with segments, lengths and factors of the
configured ranges (`asks_of_run`).  They look at a replication factor only after they have asked
for it, and sleep for as long as the operation may that runs (`isConsequent_of_run`).
-/

namespace StorageLoad

namespace Event

variable {𝕜 : Type}

/-- Whether an event, if it is a call, is one of a sort. -/
def AsksOnly (sort : Request → Prop) (e : Event) : Prop :=
  ∀ request, e.call? = some request → sort request

/-- The kind of the operation that begins. -/
def kind? : Event → Option Kind
  | running _ kind => some kind
  | _ => none

/-- The kind of the operation that began last. -/
def lastKind? (events : List Event) : Option Kind :=
  (events.filterMap kind?).getLast?

/-- Whether what has come before accounts for an event.  A look at a replication factor follows on
the request to set that of the path, with nothing but other looks in between; a sleep is as long
as that of the operation that runs may be. -/
def Follows (c : Settings 𝕜) (before : List Event) : Event → Prop
  | asked (.getReplication path) => ∃ first factor looks, before.filterMap call? =
      first ++ .setReplication path factor :: List.replicate looks (.getReplication path)
  | slept ms => ∃ kind ∈ lastKind? before, Operation.SleepsFor c ms kind
  | _ => True

/-- Every event follows on what has come before. -/
def IsConsequent (c : Settings 𝕜) (events : List Event) : Prop :=
  ∀ before e after, events = before ++ e :: after → e.Follows c before

variable {c : Settings 𝕜} {events : List Event} {e : Event}

theorem follows_of_not_isOfOperation (h : ¬ e.IsOfOperation) : e.Follows c events := by
  cases e with
  | asked request => exact absurd trivial h
  | slept ms => exact absurd trivial h
  | _ => trivial

theorem Follows.append_left (h : e.Follows c events) (first : List Event) :
    e.Follows c (first ++ events) := by
  cases e with
  | asked request =>
      cases request with
      | getReplication path =>
          obtain ⟨calls, factor, looks, hcalls⟩ := h
          refine ⟨first.filterMap call? ++ calls, factor, looks, ?_⟩
          rw [List.filterMap_append, hcalls, List.append_assoc]
      | _ => trivial
  | slept ms =>
      obtain ⟨kind, hkind, hms⟩ := h
      refine ⟨kind, ?_, hms⟩
      rw [lastKind?, List.filterMap_append, List.getLast?_append]
      exact Option.or_eq_some_iff.mpr (Or.inl hkind)
  | _ => trivial

theorem isSerial_asksOnly (sort : Request → Prop) :
    Worker.IsSerial fun events => ∀ e ∈ events, e.AsksOnly sort where
  nil := fun _ he => absurd he List.not_mem_nil
  append := fun hbefore hafter => List.forall_mem_append.mpr ⟨hbefore, hafter⟩
  own := by
    intro e he
    rw [List.forall_mem_singleton]
    intro request hcall
    cases e with
    | asked asked => exact absurd trivial he
    | _ => cases hcall

theorem isSerial_isConsequent : Worker.IsSerial (IsConsequent c) where
  nil := fun _ _ _ h => absurd h (by simp)
  append := by
    intro xs ys hxs hys before e after h
    rcases List.append_eq_append_iff.mp h with ⟨first, rfl, hrest⟩ | ⟨rest, rfl, hrest⟩
    · exact (hys first e after hrest).append_left xs
    · cases rest with
      | nil =>
          have hfollows := (hys [] e after hrest.symm).append_left before
          rwa [List.append_nil] at hfollows
      | cons d rest =>
          obtain ⟨rfl, -⟩ := List.cons.inj hrest
          exact hxs before e rest rfl
  own := by
    intro e he before d after h
    obtain rfl : d = e := by
      have hmem : d ∈ [e] := h ▸ List.mem_append_right before List.mem_cons_self
      exact List.mem_singleton.mp hmem
    exact follows_of_not_isOfOperation he

end Event

namespace Operation

open StorageLoad.Action Event

variable {σ ρ 𝕜 : Type} [RandomSource ρ] [Surroundings σ] {c : Settings 𝕜} {space : Namespace}
  {kind : Kind} {events : List Event}

theorem Does.asksOnly {e : Event} (h : Does c space kind e) : e.AsksOnly (c.Asks space) := by
  intro request hcall
  cases e with
  | asked asked =>
      obtain rfl := Option.some.inj hcall
      exact h.2
  | _ => cases hcall

/-- Calls that set the replication factor of one path, and then look at it. -/
def IsWatch (calls : List Request) : Prop :=
  ∃ path factor looks,
    calls = .setReplication path factor :: List.replicate looks (.getReplication path)

theorem IsWatch.exists_of_append {before after : List Request} {path : Path}
    (h : IsWatch (before ++ .getReplication path :: after)) :
    ∃ factor looks, before = .setReplication path factor ::
      List.replicate looks (.getReplication path) := by
  obtain ⟨path', factor, looks, hcalls⟩ := h
  cases before with
  | nil => exact absurd (List.cons.inj hcalls).1 (by simp)
  | cons request before =>
      obtain ⟨rfl, hlooks⟩ := List.cons.inj hcalls
      obtain ⟨-, hbefore, hafter⟩ := List.append_eq_replicate_iff.mp hlooks
      have hlook : Request.getReplication path = .getReplication path' :=
        List.eq_of_mem_replicate (hafter ▸ List.mem_cons_self)
      obtain rfl := Request.getReplication.inj hlook
      exact ⟨factor, before.length, congrArg _ hbefore⟩

theorem calls_of_awaits {path : Path} (h : ∀ e ∈ events, Awaits c path e) :
    ∃ looks, events.filterMap call? = List.replicate looks (.getReplication path) := by
  refine ⟨_, List.eq_replicate_iff.mpr ⟨rfl, ?_⟩⟩
  intro request hrequest
  obtain ⟨e, he, hcall⟩ := List.mem_filterMap.mp hrequest
  have hawaits := h e he
  cases e with
  | asked asked =>
      obtain rfl := Option.some.inj hcall
      exact hawaits
  | _ => cases hcall

theorem isWatch_setReplication (polls : Nat) :
    Course.Adds (setReplication polls c space : Action σ ρ (List Record)).run fun _ events =>
      events.filterMap call? = [] ∨ IsWatch (events.filterMap call?) := by
  refine adds_bind_of_silent (adds_drawOutcome _) (Or.inl rfl) fun path => ?_
  refine adds_bind_of_silent (adds_draw _) (Or.inl rfl) fun replicas => ?_
  rw [ExceptT.run_bind]
  apply (adds_ask _).bind
  rintro answer _ rfl
  have hset : ∀ rest : List Event, (∀ e ∈ rest, Awaits c path e) →
      IsWatch ((.asked (.setReplication path (.int replicas)) :: rest).filterMap call?) := by
    intro rest hrest
    obtain ⟨looks, hlooks⟩ := calls_of_awaits hrest
    exact ⟨path, .int replicas, looks, by rw [← hlooks]; rfl⟩
  cases answer with
  | error fault =>
      apply (Course.adds_pure _).mono
      rintro _ _ ⟨-, rfl⟩
      exact Or.inr (hset [] (by simp))
  | ok done =>
      refine Course.Adds.mono ?_ fun _ rest hrest => Or.inr (hset rest hrest)
      dsimp only
      split
      · refine AddsOnly.bind addsOnly_now fun start => ?_
        exact (awaits_awaitReplicas path replicas start polls).bind fun _ => addsOnly_pure _
      · exact addsOnly_pure _

theorem isWatch_run (polls : Nat) :
    Course.Adds (run polls c .setReplication : Action σ ρ (List Record)).run fun _ events =>
      events.filterMap call? = [] ∨ IsWatch (events.filterMap call?) := by
  rw [run, if_neg (by decide)]
  refine adds_bind_of_silent (adds_nothing (addsOnly_lift _)) (Or.inl rfl) fun space => ?_
  refine adds_bind_of_silent (adds_nothing addsOnly_now) (Or.inl rfl) fun start => ?_
  rw [ofCourse, ExceptT.run_bind_lift]
  apply (isWatch_setReplication polls).bind
  intro answer events hevents
  refine Course.Adds.mono (adds_nothing ?_) ?_
  · cases answer with
    | ok outputs => exact (addsOnly_elapsed start).bind fun _ => addsOnly_pure _
    | error fault =>
        dsimp only
        split
        · exact (addsOnly_elapsed start).bind fun _ => addsOnly_pure _
        · exact addsOnly_throw _
  · rintro _ _ rfl
    rwa [List.append_nil]

theorem isConsequent_of_does {number : Nat} (hdoes : ∀ e ∈ events, Does c space kind e)
    (hwatch : kind = .setReplication → events.filterMap call? = [] ∨
      IsWatch (events.filterMap call?)) :
    IsConsequent c (.running number kind :: events) := by
  intro before e after h
  cases before with
  | nil =>
      obtain ⟨rfl, -⟩ := List.cons.inj h
      trivial
  | cons first before =>
      rw [List.cons_append] at h
      obtain ⟨rfl, rfl⟩ := List.cons.inj h
      obtain ⟨hbefore, hafter⟩ := List.forall_mem_append.mp hdoes
      have he := (List.forall_mem_cons.mp hafter).1
      cases e with
      | asked request =>
          cases request with
          | getReplication path =>
              obtain rfl : kind = .setReplication := by
                have hmethod : Method.getReplication ∈ methods kind := he.1
                revert hmethod
                cases kind <;> decide
              have hcalls := (hwatch rfl).resolve_left (by simp [call?])
              rw [List.filterMap_append, List.filterMap_cons_some (f := call?) rfl] at hcalls
              obtain ⟨factor, looks, heq⟩ := hcalls.exists_of_append
              exact ⟨[], factor, looks, heq⟩
          | _ => trivial
      | slept ms =>
          have hnone : before.filterMap kind? = [] := by
            rw [List.filterMap_eq_nil_iff]
            intro d hd
            have hown := hbefore d hd
            cases d with
            | running number kind => exact hown.elim
            | _ => rfl
          refine ⟨kind, ?_, he⟩
          rw [lastKind?, List.filterMap_cons_some (f := kind?) rfl, hnone]
          rfl
      | _ => trivial

end Operation

namespace Worker

variable {σ ρ τ 𝕜 : Type} [RandomSource ρ] [Surroundings σ] {c : Settings 𝕜} {space : Namespace}

theorem asks_of_run (hspace : c.space = .ok space) {policy : Policy τ ρ} {limit : Nat}
    {key value : String} {world : σ} {random : ρ} {a : Account σ}
    (h : accountWith policy limit c key value world random = some a) :
    ∀ request ∈ a.calls, c.Asks space request := by
  have hserial := Event.isSerial_asksOnly (c.Asks space)
  have hevents : ∀ e ∈ a.events, e.AsksOnly (c.Asks space) := by
    apply hserial.of_run _ h
    intro kind number
    apply (Operation.does_run hspace limit kind).mono
    intro answer events hdoes
    exact hserial.append (hserial.own (.running number kind) id) fun e he => (hdoes e he).asksOnly
  intro request hrequest
  obtain ⟨e, he, hcall⟩ := List.mem_filterMap.mp hrequest
  exact hevents e he request hcall

theorem isConsequent_of_run (hspace : c.space = .ok space) {policy : Policy τ ρ} {limit : Nat}
    {key value : String} {world : σ} {random : ρ} {a : Account σ}
    (h : accountWith policy limit c key value world random = some a) :
    Event.IsConsequent c a.events := by
  apply Event.isSerial_isConsequent.of_run _ h
  intro kind number
  have hdoes := Operation.does_run (σ := σ) (ρ := ρ) hspace limit kind
  have hwatch : Course.Adds (Operation.run limit c kind : Action σ ρ (List Record)).run
      fun _ events =>
      kind = .setReplication → events.filterMap Event.call? = [] ∨
        Operation.IsWatch (events.filterMap Event.call?) := by
    by_cases hkind : kind = .setReplication
    · subst hkind
      exact (Operation.isWatch_run limit).mono fun _ _ h _ => h
    · exact hdoes.mono fun _ _ _ h => absurd h hkind
  apply (Course.Adds.and hdoes hwatch).mono
  rintro _ events ⟨hdoes, hwatch⟩
  exact Operation.isConsequent_of_does hdoes hwatch

end Worker

end StorageLoad
