import Mathlib.Algebra.Order.Floor.Ring
import Mathlib.Data.Rat.Floor
import StorageLoad.Proofs.Memory.Lag
import StorageLoad.Proofs.Shared

/-!
The wait for a replication factor.  What its polls come upon is a sequence of answers and of times
(`Polls`); whatever they are, the wait ends with the first poll that is told the factor or that
finds the time up, and how it ends depends on that poll only (`wait_ends`).
-/

namespace StorageLoad

open Operation

/-- What polls of a path come upon, one after the other with a sleep in between: the worlds before
them, what they are told, the times that are read next, and the worlds then. -/
structure Polls (σ : Type) [Surroundings σ] (path : Path) (pollMs : Int) where
  before : ℕ → σ
  factor : ℕ → Reply
  reading : ℕ → Int
  after : ℕ → σ
  asked : ∀ n, ∃ w, Surroundings.call (.getReplication path) (before n) =
    some (.ok (factor n), w) ∧ Surroundings.now w = (reading n, after n)
  slept : ∀ n, Surroundings.sleep pollMs (after n) = (.ok (), before (n + 1))

namespace Memory

variable {m : Memory} {path : Path} {count : Count}

/-- The service after so many polls of a path. -/
def afterPolls (m : Memory) (path : Path) : ℕ → Memory
  | 0 => m
  | n + 1 => ((m.afterPolls path n).getReplication path).2

theorem Counts.afterPolls (h : m.Counts path count) (n : ℕ) :
    (m.afterPolls path n).Counts path (Count.polled^[n] count) := by
  induction n with
  | zero => exact h
  | succ n ih => exact Function.iterate_succ_apply' Count.polled n count ▸ ih.getReplication.2

theorem Counts.told_afterPolls (h : m.Counts path count) (n : ℕ) :
    ((m.afterPolls path n).getReplication path).1 =
      .ok (.value (Count.polled^[n + 1] count).reported) :=
  Function.iterate_succ_apply' Count.polled n count ▸ (h.afterPolls n).getReplication.1

end Memory

theorem Clock.seconds_eq_error {ms : Int} (h : Double.tooLarge ms.natAbs 1) :
    Clock.seconds ms = .error .tooLargeForReal := by
  change (Double.ofInt ms).bind _ = _
  rw [Double.ofInt, if_pos h]
  rfl

namespace Action

variable {σ ρ α β : Type} {action : Action σ ρ α} {s s' : Scene σ ρ}

theorem run_bind_of_ok {a : α} (h : action.run s = some (.ok a, s')) (next : α → Action σ ρ β) :
    (action >>= next).run s = (next a).run s' := by
  rw [ExceptT.run_bind]
  change (action.run s).bind _ = _
  rw [h]
  rfl

variable [Surroundings σ] {path : Path} {pollMs : Int}

theorem run_ask_of_call {request : Request} {reply : Reply} {w : σ}
    (h : Surroundings.call request s.world = some (.ok reply, w)) :
    (ask request : Action σ ρ Reply).run s = some
    (.ok reply, ⟨w, s.random, .asked request :: s.journal⟩) := by
  change (Surroundings.call request s.world).map _ = _
  rw [h]
  rfl

theorem run_now_of_eq {time : Int} {w : σ} (h : Surroundings.now s.world = (time, w)) :
    (now : Action σ ρ Int).run s = some (.ok time, { s with world := w }) := by
  change some (Except.ok (Surroundings.now s.world).1,
    Scene.mk (Surroundings.now s.world).2 _ _) = _
  rw [h]

theorem run_elapsed (start : Int) (s : Scene σ ρ) :
    (elapsed start : Action σ ρ Int).run s = some
    (.ok (Clock.elapsed start (Surroundings.now s.world).1),
      { s with world := (Surroundings.now s.world).2 }) :=
  rfl

theorem run_sleep (h : (Clock.seconds pollMs).isOk) (s : Scene σ ρ) :
    (sleep pollMs : Action σ ρ Unit).run s = some ((Surroundings.sleep pollMs s.world).1,
      ⟨(Surroundings.sleep pollMs s.world).2, s.random, .slept pollMs :: s.journal⟩) := by
  rw [sleep]
  cases hseconds : Clock.seconds pollMs with
  | error fault => simp [hseconds, Except.isOk, Except.toBool] at h
  | ok x => rfl

end Action

namespace Polls

variable {σ ρ 𝕜 : Type} [Surroundings σ] {path : Path} {c : Settings 𝕜} {replicas start : Int}

/-- The events of so many polls with a sleep after each, and of one more poll. -/
def events (path : Path) (pollMs : Int) (n : ℕ) : List Event :=
  (List.replicate n [Event.asked (.getReplication path), .slept pollMs]).flatten ++
    [.asked (.getReplication path)]

theorem events_succ (path : Path) (pollMs : Int) (n : ℕ) :
    events path pollMs (n + 1) = .asked (.getReplication path) :: .slept pollMs ::
      events path pollMs n := by
  rw [events, List.replicate_succ, List.flatten_cons, List.append_assoc]
  rfl

variable (p : Polls σ path c.pollMs)

/-- The factor is told, or the time is up. -/
def IsOver (timeoutMs replicas start : Int) (n : ℕ) : Prop :=
  (p.factor n).isInt replicas ∨ timeoutMs ≤ Clock.elapsed start (p.reading n)

/-- What comes of a wait that ends with a poll. -/
def outcome (replicas : Int) (n : ℕ) : Outcome Unit :=
  if (p.factor n).isInt replicas then .ok () else .error (.store (.timedOut replicas path))

/-- What is written down after the last poll of a wait. -/
def notes (replicas start : Int) (n : ℕ) : List Event :=
  if (p.factor n).isInt replicas then [.settled path replicas (Clock.elapsed start (p.reading n))]
    else []

variable {p} {n : ℕ}

theorem run_of_isOver (h : p.IsOver c.timeoutMs replicas start n)
    (hreplicas : Value.isOversized replicas = false) (polls : ℕ) (random : ρ)
    (journal : List Event) :
    (awaitReplicas c path replicas start (polls + 1) : Action σ ρ Unit).run ⟨p.before n,
      random, journal⟩ = some (p.outcome replicas n, ⟨p.after n, random,
        p.notes replicas start n ++ .asked (.getReplication path) :: journal⟩) := by
  obtain ⟨w, hcall, hnow⟩ := p.asked n
  rw [awaitReplicas, Action.run_bind_of_ok (Action.run_ask_of_call hcall), outcome, notes]
  split
  · rw [Action.run_bind_of_ok (Action.run_elapsed start _), hnow]
    rfl
  · rename_i hother
    rw [Action.run_bind_of_ok (Action.run_elapsed start _), hnow, if_pos (h.resolve_left hother),
      Fault.writing, List.any_cons, hreplicas]
    rfl

theorem run_of_not_isOver (h : ¬ p.IsOver c.timeoutMs replicas start n) (polls : ℕ) (random : ρ)
    (journal : List Event) :
    (awaitReplicas c path replicas start (polls + 1) : Action σ ρ Unit).run ⟨p.before n,
      random, journal⟩ =
      (Action.sleep c.pollMs >>= fun _ => awaitReplicas c path replicas start polls).run
        ⟨p.after n, random, .asked (.getReplication path) :: journal⟩ := by
  obtain ⟨hother, hearly⟩ := not_or.mp h
  obtain ⟨w, hcall, hnow⟩ := p.asked n
  rw [awaitReplicas, Action.run_bind_of_ok (Action.run_ask_of_call hcall), if_neg hother,
    Action.run_bind_of_ok (Action.run_elapsed start _), hnow, if_neg hearly]

theorem run_of_goesOn (h : ¬ p.IsOver c.timeoutMs replicas start n)
    (hseconds : (Clock.seconds c.pollMs).isOk) (polls : ℕ) (random : ρ) (journal : List Event) :
    (awaitReplicas c path replicas start (polls + 1) : Action σ ρ Unit).run ⟨p.before n,
      random, journal⟩ = (awaitReplicas c path replicas start polls).run
        ⟨p.before (n + 1), random,
          .slept c.pollMs :: .asked (.getReplication path) :: journal⟩ := by
  have hslept := Action.run_sleep hseconds
    (⟨p.after n, random, .asked (.getReplication path) :: journal⟩ : Scene σ ρ)
  rw [p.slept n] at hslept
  rw [run_of_not_isOver h, Action.run_bind_of_ok hslept]

theorem run_of_seconds_error (h : ¬ p.IsOver c.timeoutMs replicas start n) {fault : NumberFault}
    (hseconds : Clock.seconds c.pollMs = .error fault) (polls : ℕ) (random : ρ)
    (journal : List Event) :
    (awaitReplicas c path replicas start (polls + 1) : Action σ ρ Unit).run ⟨p.before n,
      random, journal⟩ =
      some (.error (.number fault),
        ⟨p.after n, random, .asked (.getReplication path) :: journal⟩) := by
  rw [run_of_not_isOver h, Action.sleep, hseconds]
  rfl

theorem run_of_first {k : ℕ} (hseconds : (Clock.seconds c.pollMs).isOk)
    (hreplicas : Value.isOversized replicas = false)
    (hlast : p.IsOver c.timeoutMs replicas start (n + k))
    (hbefore : ∀ i < k, ¬ p.IsOver c.timeoutMs replicas start (n + i)) {polls : ℕ}
    (hpolls : k < polls) (random : ρ) (journal : List Event) :
    (awaitReplicas c path replicas start polls : Action σ ρ Unit).run ⟨p.before n,
      random, journal⟩ = some (p.outcome replicas (n + k), ⟨p.after (n + k), random,
        p.notes replicas start (n + k) ++ (events path c.pollMs k).reverse ++ journal⟩) := by
  induction k generalizing n polls journal with
  | zero =>
      obtain ⟨polls, rfl⟩ := Nat.exists_eq_add_one.mpr hpolls
      have hhere : p.IsOver c.timeoutMs replicas start n := hlast
      rw [run_of_isOver hhere hreplicas, List.append_assoc]
      rfl
  | succ k ih =>
      obtain ⟨polls, rfl⟩ := Nat.exists_eq_add_one.mpr (Nat.zero_lt_of_lt hpolls)
      have hhere : ¬ p.IsOver c.timeoutMs replicas start n := hbefore 0 (Nat.succ_pos k)
      have hnext : n + (k + 1) = n + 1 + k := by omega
      rw [run_of_goesOn hhere hseconds, hnext,
        ih (hnext ▸ hlast) ?_ (Nat.lt_of_succ_lt_succ hpolls), events_succ]
      · simp
      · intro i hi
        have hshift : n + 1 + i = n + (i + 1) := by omega
        exact hshift ▸ hbefore (i + 1) (Nat.succ_lt_succ hi)

section Clock

variable (hlater : ∀ n, p.reading n + c.pollMs ≤ p.reading (n + 1)) (hfirst : start ≤ p.reading 0)

include hlater hfirst

theorem add_mul_le_reading (n : ℕ) : start + n * c.pollMs ≤ p.reading n := by
  induction n with
  | zero => simpa using hfirst
  | succ n ih =>
      have hstep := hlater n
      rw [Nat.cast_succ, Int.add_mul, Int.one_mul]
      omega

theorem isOver_ceil (hpoll : 1 ≤ c.pollMs) (replicas : Int) :
    p.IsOver c.timeoutMs replicas start ⌈(c.timeoutMs : ℚ) / c.pollMs⌉.toNat := by
  have hreading := add_mul_le_reading hlater hfirst ⌈(c.timeoutMs : ℚ) / c.pollMs⌉.toNat
  have hfull : c.timeoutMs ≤ ⌈(c.timeoutMs : ℚ) / c.pollMs⌉ * c.pollMs := by
    have hpos : (0 : ℚ) < c.pollMs := Int.cast_pos.mpr hpoll
    exact_mod_cast (div_le_iff₀ hpos).mp (Int.le_ceil ((c.timeoutMs : ℚ) / c.pollMs))
  have hround := Int.mul_le_mul_of_nonneg_right (Int.self_le_toNat ⌈(c.timeoutMs : ℚ) / c.pollMs⌉)
    (Int.le_trans Int.one_nonneg hpoll)
  right
  rw [Clock.elapsed]
  omega

/-- There is a last poll, and not after the time is full of sleeps. -/
theorem exists_first (hpoll : 1 ≤ c.pollMs) (htimeout : 0 ≤ c.timeoutMs) (replicas : Int) :
    ∃ n : ℕ, (n : Int) ≤ ⌈(c.timeoutMs : ℚ) / c.pollMs⌉ ∧ p.IsOver c.timeoutMs replicas start n ∧
      ∀ i < n, ¬ p.IsOver c.timeoutMs replicas start i := by
  classical
  have hover := isOver_ceil hlater hfirst hpoll replicas
  refine ⟨Nat.find ⟨_, hover⟩, ?_, Nat.find_spec ⟨_, hover⟩, fun i hi =>
    Nat.find_min ⟨_, hover⟩ hi⟩
  have hle : Nat.find ⟨_, hover⟩ ≤ ⌈(c.timeoutMs : ℚ) / c.pollMs⌉.toNat := Nat.find_min' _ hover
  have hnonneg : 0 ≤ ⌈(c.timeoutMs : ℚ) / c.pollMs⌉ :=
    Int.ceil_nonneg (div_nonneg (Int.cast_nonneg htimeout)
      (Int.cast_nonneg (Int.le_trans Int.one_nonneg hpoll)))
  omega

end Clock

theorem outcome_eq_ok_iff : p.outcome replicas n = .ok () ↔ (p.factor n).isInt replicas := by
  rw [outcome]
  split
  · exact iff_of_true rfl ‹_›
  · exact iff_of_false (by simp) ‹_›

theorem isInt_iff_of_first (hlast : p.IsOver c.timeoutMs replicas start n)
    (hbefore : ∀ i < n, ¬ p.IsOver c.timeoutMs replicas start i) :
    (p.factor n).isInt replicas ↔ ∃ k, (p.factor k).isInt replicas ∧
      ∀ i < k, ¬ (p.factor i).isInt replicas →
      Clock.elapsed start (p.reading i) < c.timeoutMs := by
  constructor
  · intro htold
    exact ⟨n, htold, fun i hi _ => Int.not_le.mp (not_or.mp (hbefore i hi)).2⟩
  · rintro ⟨k, htold, hearly⟩
    by_contra hother
    rcases Nat.lt_trichotomy k n with hlt | rfl | hlt
    · exact (not_or.mp (hbefore k hlt)).1 htold
    · exact hother htold
    · exact Int.not_le.mpr (hearly n hlt hother) (hlast.resolve_left hother)

theorem last_of_lag {lag : Int} (hlast : p.IsOver c.timeoutMs replicas start n)
    (hbefore : ∀ i < n, ¬ p.IsOver c.timeoutMs replicas start i)
    (hfactor : ∀ i : ℕ, (p.factor i).isInt replicas ↔ lag ≤ i + 1)
    (hearly : ∀ i : ℕ, (i : Int) + 1 < lag → Clock.elapsed start (p.reading i) < c.timeoutMs) :
    (p.factor n).isInt replicas ∧ (n : Int) + 1 = max lag 1 := by
  have htold : (p.factor n).isInt replicas := by
    by_contra hnot
    have hshort : (n : Int) + 1 < lag := Int.not_le.mp fun hle => hnot ((hfactor n).mpr hle)
    exact Int.not_le.mpr (hearly n hshort) (hlast.resolve_left hnot)
  have hlong := (hfactor n).mp htold
  refine ⟨htold, ?_⟩
  cases n with
  | zero => omega
  | succ n =>
      have hnot := (not_or.mp (hbefore n (Nat.lt_succ_self n))).1
      rw [hfactor] at hnot
      omega

section Memory

open Memory

variable {m m' : Memory} {e : Entry}

theorem isInt_factor_iff (hlag : 0 ≤ m.lag) (he : m.file path = .ok e)
    (hother : ¬ (Reply.value e.replication).isInt replicas)
    (hset : m.setReplication path (.int replicas) = (.ok .yes, m'))
    (hfactor : ((m'.afterPolls path n).getReplication path).1 = .ok (p.factor n)) :
    (p.factor n).isInt replicas ↔ m.lag ≤ n + 1 := by
  obtain ⟨m'', hset', hcounts⟩ := counts_of_setReplication he (.int replicas)
  obtain rfl := congrArg Prod.snd (hset.symm.trans hset')
  have htold := hcounts.told_afterPolls n
  rw [hfactor] at htold
  have htimed : Count.IsTimed m.lag ⟨if m.lag = 0 then .int replicas else e.replication,
      .int replicas, m.lag⟩ :=
    ⟨hlag, Int.le_refl _, fun hzero => if_pos hzero⟩
  rw [Except.ok.inj htold, htimed.reported_iterate_polled]
  dsimp only
  split
  · rename_i hbefore
    rw [if_neg (by omega)]
    exact iff_of_false hother (Int.not_le.mpr hbefore)
  · rename_i hover
    exact iff_of_true (decide_eq_true rfl) (Int.not_lt.mp hover)

end Memory

/-- Whatever the polls of a path are told, and whatever the clock shows, as long as it does not go
back and a sleep takes its time: a wait ends with the first poll that is told the factor or that
finds the time up, and no later than the sleeps fill the time.  It succeeds if that poll is told
the factor, or else fails because it took too long, and there was one sleep after each other poll.
With a service in memory where the factor has just been set, and as long as there is time, it
takes the polls of the lag. -/
theorem wait_ends (p : Polls σ path c.pollMs) (hpoll : 1 ≤ c.pollMs) (htimeout : 0 ≤ c.timeoutMs)
    (hseconds : (Clock.seconds c.pollMs).isOk) (hreplicas : Value.isOversized replicas = false)
    {s : Scene σ ρ} (hstart : Surroundings.now s.world = (start, p.before 0))
    (hfirst : start ≤ p.reading 0) (hlater : ∀ n, p.reading n + c.pollMs ≤ p.reading (n + 1)) :
    ∃ n : ℕ, (n : Int) ≤ ⌈(c.timeoutMs : ℚ) / c.pollMs⌉ ∧ p.IsOver c.timeoutMs replicas start n ∧
      (∀ i < n, ¬ p.IsOver c.timeoutMs replicas start i) ∧
      (∀ polls, n < polls →
        (Action.now >>= fun since =>
          awaitReplicas c path replicas since polls : Action σ ρ Unit).run s =
          some (p.outcome replicas n, ⟨p.after n, s.random,
            p.notes replicas start n ++ (events path c.pollMs n).reverse ++ s.journal⟩)) ∧
      (p.outcome replicas n = .ok () ↔ ∃ k, (p.factor k).isInt replicas ∧ ∀ i < k,
        ¬ (p.factor i).isInt replicas → Clock.elapsed start (p.reading i) < c.timeoutMs) ∧
      ∀ (m m' : Memory) (e : Memory.Entry), 0 ≤ m.lag → m.file path = .ok e →
        ¬ (Reply.value e.replication).isInt replicas →
        m.setReplication path (.int replicas) = (.ok .yes, m') →
        (∀ i, ((m'.afterPolls path i).getReplication path).1 = .ok (p.factor i)) →
        (∀ i : ℕ, (i : Int) + 1 < m.lag → Clock.elapsed start (p.reading i) < c.timeoutMs) →
          p.outcome replicas n = .ok () ∧ (n : Int) + 1 = max m.lag 1 ∧
          (n : Int) = max (m.lag - 1) 0 := by
  obtain ⟨n, hle, hlast, hbefore⟩ := exists_first hlater hfirst hpoll htimeout replicas
  refine ⟨n, hle, hlast, hbefore, fun polls hpolls => ?_, ?_, ?_⟩
  · rw [Action.run_bind_of_ok (Action.run_now_of_eq hstart)]
    have hrun := run_of_first (n := 0) (k := n) hseconds hreplicas (by rwa [Nat.zero_add])
      (fun i hi => by rw [Nat.zero_add]; exact hbefore i hi) hpolls s.random s.journal
    rwa [Nat.zero_add] at hrun
  · rw [outcome_eq_ok_iff]
    exact isInt_iff_of_first hlast hbefore
  · intro m m' e hlag he hother hset htells hearly
    obtain ⟨htold, hn⟩ :=
      last_of_lag hlast hbefore (fun i => isInt_factor_iff hlag he hother hset (htells i)) hearly
    exact ⟨outcome_eq_ok_iff.mpr htold, hn, by omega⟩

section Runs

open Memory StorageLoad.Path

variable {m : Memory} {count : Count}

/-- The polls of one that is alone with a service in memory, with any readings of the clock. -/
def alone (h : m.Counts path count) (clock : ℕ → Int) (pollMs : Int) :
    Polls Shared path pollMs where
  before n := ⟨m.afterPolls path n, [], fun k => clock (n + k)⟩
  factor n := .value (Count.polled^[n + 1] count).reported
  reading := clock
  after n := ⟨m.afterPolls path (n + 1), [], fun k => clock (n + 1 + k)⟩
  asked n := by
    refine ⟨⟨m.afterPolls path (n + 1), [], fun k => clock (n + k)⟩, ?_, ?_⟩
    · change
        some (Except.mapError Fault.store ((m.afterPolls path n).getReplication path).1, _) = _
      rw [h.told_afterPolls n]
      rfl
    · change (clock n, (⟨_, _, fun k => clock (n + (k + 1))⟩ : Shared)) = _
      simp only [Nat.add_right_comm n 1, Nat.add_assoc]
  slept _ := rfl

/-- One file with one replica, in a service with a lag of two polls. -/
def shelved : Memory :=
  (fresh 2).put (ofNames [['f']]) (Entry.file [] (.int 1) (.int 1))

theorem file_shelved : shelved.file (ofNames [['f']]) = .ok (Entry.file [] (.int 1) (.int 1)) :=
  file_eq_ok_iff.mpr ⟨by rw [shelved, get?_put, if_pos rfl], rfl⟩

/-- The second poll is told the factor, after one sleep. -/
theorem wait_ends_shelved : ∃ (m : Memory) (s : Scene Shared Unit),
    shelved.setReplication (ofNames [['f']]) (.int 2) = (.ok .yes, m) ∧
      (Action.now >>= fun since => awaitReplicas Worker.plain (ofNames [['f']]) 2 since 2).run
        ⟨⟨m, [], fun k => 10 * k⟩, (), []⟩ = some (.ok (), s) ∧
      s.journal.reverse = [.asked (.getReplication (ofNames [['f']])), .slept 10,
        .asked (.getReplication (ofNames [['f']])), .settled (ofNames [['f']]) 2 20] := by
  obtain ⟨m, hset, hcounts⟩ := counts_of_setReplication file_shelved (.int 2)
  let clock : ℕ → Int := fun k => 10 * (k + 1)
  let p := alone hcounts clock Worker.plain.pollMs
  have hstart : Surroundings.now (⟨m, [], fun k => 10 * k⟩ : Shared) = (0, p.before 0) := by
    change (_, (⟨m, [], fun k => 10 * ((k + 1 : ℕ) : Int)⟩ : Shared)) =
      (_, ⟨m, [], fun k => clock (0 + k)⟩)
    simp [clock]
  have hlater : ∀ n, p.reading n + Worker.plain.pollMs ≤ p.reading (n + 1) := by
    intro n
    change 10 * ((n : Int) + 1) + 10 ≤ 10 * (((n + 1 : ℕ) : Int) + 1)
    omega
  have hfirst : 0 ≤ p.reading 0 := show (0 : Int) ≤ 10 * (0 + 1) by decide
  have hshort : Value.isOversized 2 = false :=
    Value.isOversized_of_le_two_pow (k := 2) (by decide) (by decide)
  obtain ⟨n, -, -, -, hrun, -, hmemory⟩ := wait_ends (s := ⟨_, (), []⟩) p (by decide) (by decide)
    (by decide +kernel) hshort hstart hfirst hlater
  have hearly : ∀ i : ℕ, (i : Int) + 1 < 2 → Clock.elapsed 0 (p.reading i) < 100 := by
    intro i hi
    change max 0 (10 * ((i : Int) + 1) - 0) < 100
    omega
  obtain ⟨hends, -, hpolls⟩ := hmemory shelved m _ (by decide) file_shelved (by decide) hset
    hcounts.told_afterPolls hearly
  obtain rfl : n = 1 := by
    change (n : Int) = max (2 - 1) 0 at hpolls
    omega
  refine ⟨m, _, hset, (hrun 2 (by decide)).trans (by rw [hends]), ?_⟩
  rw [notes, if_pos (outcome_eq_ok_iff.mp hends)]
  rfl

/-- Polls so far apart that there is no such number of seconds. -/
def drawnOut : Settings Nat :=
  { Worker.plain with pollMs := 10 ^ 400 }

/-- The second poll would be told the factor, but the sleep before it fails. -/
theorem wait_fails_drawnOut :
    ∃ (p : Polls Shared (ofNames [['f']]) drawnOut.pollMs) (s : Scene Shared Unit),
    1 ≤ drawnOut.pollMs ∧ 0 ≤ drawnOut.timeoutMs ∧ Surroundings.now s.world = (0, p.before 0) ∧
      0 ≤ p.reading 0 ∧ (∀ n, p.reading n + drawnOut.pollMs ≤ p.reading (n + 1)) ∧
      ¬ p.IsOver drawnOut.timeoutMs 2 0 0 ∧ (p.factor 1).isInt 2 ∧ s.journal = [] ∧
      ∀ polls, ∃ s', (Action.now >>= fun since =>
        awaitReplicas drawnOut (ofNames [['f']]) 2 since (polls + 1)).run s =
          some (.error (.number .tooLargeForReal), s') ∧
        s'.journal = [.asked (.getReplication (ofNames [['f']]))] := by
  obtain ⟨m, hset, hcounts⟩ := counts_of_setReplication file_shelved (.int 2)
  let p := alone hcounts (fun k => k * drawnOut.pollMs) drawnOut.pollMs
  have hfactor : ∀ i, (p.factor i).isInt 2 ↔ (2 : Int) ≤ i + 1 := fun i =>
    isInt_factor_iff (m := shelved) (by decide) file_shelved (by decide) hset
      (hcounts.told_afterPolls i)
  have hreading : p.reading 0 = 0 := Int.zero_mul drawnOut.pollMs
  have hgoes : ¬ p.IsOver drawnOut.timeoutMs 2 0 0 := by
    rw [IsOver, hfactor, hreading]
    decide
  have hstart :
      Surroundings.now (⟨m, [], fun k => ((k - 1 : ℕ) : Int) * drawnOut.pollMs⟩ : Shared) =
      (0, p.before 0) := by
    change (((0 : ℕ) : Int) * drawnOut.pollMs,
      (⟨m, [], fun k => (k : Int) * drawnOut.pollMs⟩ : Shared)) =
      (_, ⟨m, [], fun k => ((0 + k : ℕ) : Int) * drawnOut.pollMs⟩)
    simp
  have hlater : ∀ n, p.reading n + drawnOut.pollMs ≤ p.reading (n + 1) := by
    intro n
    change (n : Int) * drawnOut.pollMs + drawnOut.pollMs ≤ ((n + 1 : ℕ) : Int) * drawnOut.pollMs
    rw [Nat.cast_succ, Int.add_mul, Int.one_mul]
  refine ⟨p, ⟨⟨m, [], fun k => ((k - 1 : ℕ) : Int) * drawnOut.pollMs⟩, (), []⟩,
    by decide +kernel, by decide, hstart, Int.le_of_eq hreading.symm, hlater, hgoes,
    (hfactor 1).mpr (by decide), rfl, fun polls => ?_⟩
  have hseconds : Clock.seconds drawnOut.pollMs = .error .tooLargeForReal :=
    Clock.seconds_eq_error (by decide +kernel)
  have hrun := run_of_seconds_error hgoes hseconds polls () []
  exact ⟨_, (Action.run_bind_of_ok (Action.run_now_of_eq hstart) _).trans hrun, rfl⟩

end Runs

end Polls

end StorageLoad
