import StorageLoad.Proofs.History
import StorageLoad.Proofs.Shared

/-!
Any number of workers on one service in memory, with their calls in any order.  Everything they
store is in its place, and nothing goes wrong for any of them but that one may wait for replicas
in vain (`runs_of_interleaving`).
-/

namespace StorageLoad

open StorageLoad.Path

/-- One of several workers: its configuration, where its random numbers come from, the clock it
reads, and the bound and the names of its run. -/
structure Member (ρ : Type) where
  settings : Settings Float
  random : ρ
  clock : Nat → Int
  limit : Nat
  key : String
  value : String

/-- The run of a worker on a fresh service, where others make calls before each of its own. -/
def Member.runAmong {ρ : Type} [RandomSource ρ] (member : Member ρ) (lag : Int)
    (others : List (List Request)) : Option (Worker.Account Shared) :=
  Worker.account member.limit member.settings member.key member.value
    ⟨Memory.fresh lag, others, member.clock⟩ member.random

/-- Workers with one namespace, each with options of its own that are read, and with clocks that
show ordinary times. -/
structure IsCrew {ι ρ : Type} (crew : ι → Member ρ) : Prop where
  read : ∀ i, ∃ options : Options, options.settings = .ok (crew i).settings
  practical : ∀ i, (crew i).settings.IsPractical
  isNormal : ∀ i, (Path.ofString (crew i).settings.baseDir).IsNormal
  baseDir : ∀ i j, (crew i).settings.baseDir = (crew j).settings.baseDir
  fileCount : ∀ i j, (crew i).settings.fileCount = (crew j).settings.fileCount
  dirSize : ∀ i j, (crew i).settings.dirSize = (crew j).settings.dirSize
  clock : ∀ i n, Clock.IsOrdinary ((crew i).clock n)

section Calls

variable {ι : Type} [DecidableEq ι]

/-- The calls of one worker among those of all. -/
def callsOf (i : ι) (calls : List (ι × Request)) : List Request :=
  calls.filterMap fun (j, request) => if j = i then some request else none

/-- What others call for before each call of one worker, and after its last one. -/
def othersBefore (i : ι) : List (ι × Request) → List (List Request)
  | [] => [[]]
  | (j, request) :: calls =>
      if j = i then [] :: othersBefore i calls
      else (othersBefore i calls).modifyHead (request :: ·)

/-- The calls, in their order, are those of the runs of all workers, each as far as it has come:
its run among the calls of the others makes its own ones. -/
def IsInterleaving {ρ : Type} [RandomSource ρ] (lag : Int) (crew : ι → Member ρ)
    (calls : List (ι × Request)) : Prop :=
  ∀ i, ∃ a, (crew i).runAmong lag (othersBefore i calls) = some a ∧ callsOf i calls <+: a.calls

theorem mem_callsOf {entry : ι × Request} {calls : List (ι × Request)} (h : entry ∈ calls) :
    entry.2 ∈ callsOf entry.1 calls :=
  List.mem_filterMap.mpr ⟨entry, h, if_pos rfl⟩

theorem of_mem_othersBefore {i : ι} {calls : List (ι × Request)} {sort : Request → Prop}
    (h : ∀ entry ∈ calls, sort entry.2) :
    ∀ requests ∈ othersBefore i calls, ∀ request ∈ requests, sort request := by
  induction calls with
  | nil => simp [othersBefore]
  | cons entry calls ih =>
      obtain ⟨hentry, hcalls⟩ := List.forall_mem_cons.mp h
      have hrest := ih hcalls
      rw [othersBefore]
      split
      · exact List.forall_mem_cons.mpr ⟨by simp, hrest⟩
      · cases hothers : othersBefore i calls with
        | nil => simp
        | cons before rest =>
            rw [hothers] at hrest
            obtain ⟨hbefore, hrest⟩ := List.forall_mem_cons.mp hrest
            exact List.forall_mem_cons.mpr ⟨List.forall_mem_cons.mpr ⟨hentry, hbefore⟩, hrest⟩

end Calls

section Crew

variable {ι ρ : Type} {crew : ι → Member ρ} {space : Namespace}

namespace IsCrew

theorem isValid (h : IsCrew crew) (i : ι) : (crew i).settings.IsValid := by
  obtain ⟨options, hread⟩ := h.read i
  exact Options.isValid_of_settings hread

theorem exists_space (h : IsCrew crew) (i : ι) : ∃ space, (crew i).settings.space = .ok space :=
  Namespace.exists_ofSizes (h.isValid i).fileCount (h.isValid i).dirSize

theorem space_eq (h : IsCrew crew) (i j : ι) :
    (crew i).settings.space = (crew j).settings.space := by
  rw [Settings.space, Settings.space, h.baseDir i j, h.fileCount i j, h.dirSize i j]

theorem exists_isSettled (h : IsCrew crew) {i : ι}
    (hspace : (crew i).settings.space = .ok space) :
    ∃ base, AllProper base ∧ ∀ j, (crew j).settings.IsSettled space base := by
  obtain ⟨base, hbase, hnormal⟩ := h.isNormal i
  refine ⟨base, hbase, ?_⟩
  intro j
  constructor
  · exact h.isValid j
  · exact h.practical j
  · exact (h.space_eq j i).trans hspace
  · exact (Namespace.of_ofSizes hspace).1.trans hnormal

end IsCrew

/-- No file of the namespace is stored as a directory, and no directory as a file. -/
structure Memory.Separates (space : Namespace) (m : Memory) : Prop where
  files : ∀ path, space.IsFile path → m.IsFree path
  directories : ∀ path, space.IsDirectory path → ∀ e, m.get? path = some e → e.isDirectory

theorem Settings.IsSettled.separates {c : Settings Float} {base : List Name}
    {hbase : AllProper base} (h : c.IsSettled space base) {m : Memory}
    (hm : m.Suits (space.plan base hbase)) :
    m.Separates space where
  files := by
    intro path hpath
    obtain ⟨names, hnames, rfl⟩ := h.hasFile hpath
    exact hm.placed.isFree hnames
  directories := by
    intro path hpath e he
    obtain ⟨names, hnames, rfl⟩ := h.hasDirectory hpath
    exact hm.placed.isDirectory hnames he

end Crew

namespace Worker

section Turns

variable {𝕜 : Type} {c : Settings 𝕜} {turns : List Turn} {ending : Ending}

theorem IsRounds.mem_selected (h : IsRounds c turns ending) {kind : Kind}
    {answer : Outcome (List Record)} (hran : .ran kind answer ∈ turns) :
    .selected (.ok (some kind)) ∈ turns := by
  obtain ⟨i, hi⟩ := List.mem_iff_getElem?.mp hran
  cases i with
  | zero =>
      obtain ⟨elapsed, hhead⟩ := h.head?_eq
      rw [← List.head?_eq_getElem?, hhead] at hi
      cases hi
  | succ i =>
      have hbefore := ((h.linked i).ran_iff kind).mp ⟨answer, hi⟩
      exact List.mem_of_getElem? hbefore

/-- Where every turn goes as it should, only a wait for replicas can make a run stop at a
fault. -/
theorem IsRounds.not_aborted (h : IsRounds c turns ending)
    (hexpected : ∀ turn ∈ turns, turn.IsExpected)
    (hnone : ∀ turn ∈ turns, ¬ turn.selects .setReplication) : ending ≠ .aborted := by
  intro haborted
  obtain ⟨-, hlast⟩ := h.aborted_iff.mp haborted
  obtain ⟨turn, hturn, hfailed⟩ := List.mem_filterMap.mp (List.mem_of_getLast? hlast)
  have hgood := hexpected turn hturn
  cases turn with
  | looked elapsed => cases hfailed
  | selected answer =>
      obtain ⟨choice, rfl⟩ := hgood
      cases hfailed
  | ran kind answer =>
      rcases hgood with hreturned | ⟨fault, rfl, rfl, -⟩
      · simp [Turn.hasFailed?, hreturned] at hfailed
      · exact hnone _ (h.mem_selected hturn) rfl
  | paused answer =>
      have hreturned : hasReturned answer := hgood
      simp [Turn.hasFailed?, hreturned] at hfailed

end Turns

variable {ι ρ : Type} [DecidableEq ι] [RandomSource ρ]

/-- Workers with one namespace share a fresh service in memory, in whatever order their calls
come.  They call for nothing but files and directories of their namespace, and whatever calls of
this kind the service has answered, it holds no file as a directory and no directory as a file.
In the run of each, every operation returns, unless it waits for replicas in vain, and every pause
does, so that no run is aborted that never selects an operation which waits for replicas. -/
theorem runs_of_interleaving (crew : ι → Member ρ) (hcrew : IsCrew crew) (lag : Int)
    {calls : List (ι × Request)} (h : IsInterleaving lag crew calls) :
    (∀ i space, (crew i).settings.space = .ok space →
        (∀ entry ∈ calls, (crew entry.1).settings.Asks space entry.2) ∧
          ∀ requests, (∀ request ∈ requests, ∃ j, (crew j).settings.Asks space request) →
            ∃ answers m, Storage.serve requests (Memory.fresh lag) = some (answers, m) ∧
              m.Separates space) ∧
      ∀ i a, (crew i).runAmong lag (othersBefore i calls) = some a →
        (∀ turn ∈ a.turns, turn.IsExpected) ∧
          ((∀ turn ∈ a.turns, ¬ turn.selects .setReplication) → a.ending ≠ .aborted) := by
  -- Each call is one of its worker's run, and so what the worker's configuration allows it.
  have hasks : ∀ space, (∀ j, (crew j).settings.space = .ok space) →
      ∀ entry ∈ calls, (crew entry.1).settings.Asks space entry.2 := by
    intro space hspace entry hentry
    obtain ⟨a, hrun, hmade⟩ := h entry.1
    exact asks_of_run (hspace entry.1) hrun entry.2 (hmade.subset (mem_callsOf hentry))
  constructor
  · intro i space hspace
    obtain ⟨base, hbase, hsettled⟩ := hcrew.exists_isSettled hspace
    refine ⟨hasks space fun j => (hsettled j).space_eq, ?_⟩
    intro requests hrequests
    have hallows : ∀ request ∈ requests, (space.plan base hbase).Allows request := by
      intro request hrequest
      obtain ⟨j, hj⟩ := hrequests request hrequest
      exact (hsettled j).allows hj
    obtain ⟨answers, m, hserve, hm⟩ := (Memory.suits_fresh lag).exists_serve hallows
    exact ⟨answers, m, hserve, (hsettled i).separates hm⟩
  · intro i a hrun
    obtain ⟨space, hspace⟩ := hcrew.exists_space i
    obtain ⟨base, hbase, hsettled⟩ := hcrew.exists_isSettled hspace
    have hallows : ∀ entry ∈ calls, (space.plan base hbase).Allows entry.2 := fun entry hentry =>
      (hsettled entry.1).allows (hasks space (fun j => (hsettled j).space_eq) entry hentry)
    have hworld : Shared.Suits (space.plan base hbase)
        ⟨Memory.fresh lag, othersBefore i calls, (crew i).clock⟩ :=
      ⟨Memory.suits_fresh lag, of_mem_othersBefore hallows, hcrew.clock i⟩
    have hsustains : Sustains (Scene.GoesWell (space.plan base hbase)) Clock.IsOrdinary
        (weighted (crew i).settings : Policy Tally ρ) (crew i).limit (crew i).settings :=
      sustains_weighted (hsettled i) (crew i).limit
    obtain ⟨s, hs, -, hevents⟩ := hsustains.exists_of_run hrun ⟨hworld, by simp⟩
    have hturns : ∀ turn ∈ a.turns, turn.IsExpected := by
      intro turn hturn
      apply hs.turns turn
      rwa [Account.turns, ← hevents, List.filterMap_reverse, List.mem_reverse] at hturn
    exact ⟨hturns, (isRounds_of_run hrun).1.not_aborted hturns⟩

section Runs

/-- The options that `plain` is read from, with one operation that is selected once. -/
def plainOptions (kind : Kind) : Options :=
  [(.text "duration", .int 1), (.text "exit_on_error", .bool true),
    (.text "base_dir", .text "/base"),
    (.text "operations", .map [(.text kind.name, .map [(.text "max_count", .int 1)])]),
    (.text "files", .int 4), (.text "dir_size", .int 4), (.text "block_size", .int 1),
    (.text "write_size", .int 1), (.text "append_size", .int 1), (.text "read_size", .int 1),
    (.text "replication", .int 1), (.text "replication_poll", .int 10),
    (.text "replication_timeout", .int 100), (.text "workers", .int 1)]

def single (kind : Kind) : Settings Float :=
  { plain with
    exitOnError := true
    operations := [⟨kind, 100.0, .constant 1.0, some 1⟩]
    dirSize := 4 }

/-- One worker makes the directory, the other one lists it. -/
def pair (second : Bool) : Member Zeros where
  settings := if second then single .ls else single .mkdir
  random := ⟨⟩
  clock := fun _ => 0
  limit := 5
  key := "k"
  value := "v"

theorem isCrew_pair : IsCrew pair where
  read := by
    rintro (_ | _)
    · exact ⟨plainOptions .mkdir, Outcome.eq_ok_of_toOption (by decide +kernel)⟩
    · exact ⟨plainOptions .ls, Outcome.eq_ok_of_toOption (by decide +kernel)⟩
  practical := by
    rintro (_ | _)
    all_goals
      constructor
      · decide
      · decide
      · exact Value.isOversized_of_le_two_pow (k := 2) (by decide) (by decide)
      · exact Value.isOversized_of_le_two_pow (k := 2) (by decide) (by decide)
      · exact Value.isOversized_of_le_two_pow (k := 2) (by decide) (by decide)
      · simp [pair, single, plain]
      · decide +kernel
  isNormal := by
    rintro (_ | _)
    all_goals exact ⟨[['b', 'a', 's', 'e']], by decide, by decide⟩
  baseDir := by decide
  fileCount := by decide
  dirSize := by decide
  clock := fun _ _ => Nat.zero_le _

/-- The directory of the namespace that holds all files. -/
def shelf : Path :=
  Path.ofString "/base/data/sl_dir_0"

def pairCalls : List (Bool × Request) :=
  [(false, .mkdirs shelf), (true, .listdir shelf)]

theorem exists_run_pair (second : Bool) :
    ∃ a, (pair second).runAmong 0 (othersBefore second pairCalls) = some a ∧
      a.calls = callsOf second pairCalls ∧ ∀ turn ∈ a.turns, ¬ turn.selects .setReplication := by
  -- Calls hold values, whose equality is not decided, so their paths are compared.
  have hrun : ((pair second).runAmong 0 (othersBefore second pairCalls)).map (fun a =>
      (a.calls.map fun request => match request with
        | .mkdirs path => some (false, path)
        | .listdir path => some (true, path)
        | _ => none, a.turns.countP (Turn.selects .setReplication))) =
      some ([some (second, shelf)], 0) := by
    cases second <;> decide +kernel
  obtain ⟨a, ha, hfacts⟩ := Option.map_eq_some_iff.mp hrun
  obtain ⟨hcalls, hnone⟩ := Prod.mk.inj hfacts
  refine ⟨a, ha, ?_, List.countP_eq_zero.mp hnone⟩
  obtain ⟨request, hrequest, hshelf⟩ := List.map_eq_singleton_iff.mp hcalls
  rw [hrequest]
  split at hshelf
  · obtain ⟨rfl, rfl⟩ := Prod.mk.inj (Option.some.inj hshelf)
    rfl
  · obtain ⟨rfl, rfl⟩ := Prod.mk.inj (Option.some.inj hshelf)
    rfl
  · cases hshelf

theorem isInterleaving_pair : IsInterleaving 0 pair pairCalls := by
  intro second
  obtain ⟨a, ha, hcalls, -⟩ := exists_run_pair second
  refine ⟨a, ha, ?_⟩
  rw [hcalls]

theorem runs_of_interleaving_pair :
    ∃ space a b, (pair false).settings.space = .ok space ∧
      (pair false).runAmong 0 (othersBefore false pairCalls) = some a ∧
      (pair true).runAmong 0 (othersBefore true pairCalls) = some b ∧
      (∀ entry ∈ pairCalls, (pair entry.1).settings.Asks space entry.2) ∧
      (∃ answers m, Storage.serve (pairCalls.map Prod.snd) (Memory.fresh 0) = some (answers, m) ∧
        m.Separates space) ∧
      (∀ turn ∈ a.turns ++ b.turns, turn.IsExpected) ∧ a.ending ≠ .aborted ∧
      b.ending ≠ .aborted := by
  obtain ⟨a, ha, -, hmade⟩ := exists_run_pair false
  obtain ⟨b, hb, -, hlisted⟩ := exists_run_pair true
  obtain ⟨space, hspace⟩ := isCrew_pair.exists_space false
  obtain ⟨hstored, hruns⟩ := runs_of_interleaving pair isCrew_pair 0 isInterleaving_pair
  obtain ⟨hasks, hserve⟩ := hstored false space hspace
  obtain ⟨hfirst, hends⟩ := hruns false a ha
  obtain ⟨hsecond, hends'⟩ := hruns true b hb
  refine ⟨space, a, b, hspace, ha, hb, hasks, hserve _ ?_, ?_, hends hmade, hends' hlisted⟩
  · intro request hrequest
    obtain ⟨entry, hentry, rfl⟩ := List.mem_map.mp hrequest
    exact ⟨entry.1, hasks entry hentry⟩
  · exact List.forall_mem_append.mpr ⟨hfirst, hsecond⟩

/-- A pause is to last so long that there is no such number of seconds. -/
def hasty : Member Zeros where
  settings :=
    { single .mkdir with
      pause := some ⟨10 ^ 400, 10 ^ 400, Int.le_refl _⟩ }
  random := ⟨⟩
  clock := fun _ => 0
  limit := 5
  key := "k"
  value := "v"

def hastyOptions : Options :=
  plainOptions .mkdir ++ [(.text "sleep", .list [.int (10 ^ 400), .int (10 ^ 400)])]

/-- Alone on the service, a worker that never waits for replicas is aborted, because it cannot
pause for so long. -/
theorem aborted_hasty :
    hastyOptions.settings = .ok hasty.settings ∧
      hasty.settings.writeSize.upper ≤ Segment.maxPayload + Segment.headerLength ∧
      hasty.settings.appendSize.upper ≤ Segment.maxPayload + Segment.headerLength ∧
      (Path.ofString hasty.settings.baseDir).IsNormal ∧
      ∃ calls a, IsInterleaving 0 (fun _ : Unit => hasty) calls ∧
        hasty.runAmong 0 (othersBefore () calls) = some a ∧
        (∀ turn ∈ a.turns, ¬ turn.selects .setReplication) ∧ a.ending = .aborted := by
  have hrun : (hasty.runAmong 0 [[], []]).map (fun a =>
      (a.calls.length, a.turns.countP (Turn.selects .setReplication), a.ending)) =
      some (1, 0, .aborted) := by
    decide +kernel
  obtain ⟨a, ha, hfacts⟩ := Option.map_eq_some_iff.mp hrun
  obtain ⟨hcalls, hfacts⟩ := Prod.mk.inj hfacts
  obtain ⟨hnone, hends⟩ := Prod.mk.inj hfacts
  obtain ⟨request, hrequest⟩ := List.length_eq_one_iff.mp hcalls
  refine ⟨Outcome.eq_ok_of_toOption (by decide +kernel), by decide, by decide,
    ⟨[['b', 'a', 's', 'e']], by decide, by decide⟩, [((), request)], a, ?_, ha,
    List.countP_eq_zero.mp hnone, hends⟩
  intro _
  refine ⟨a, ha, ?_⟩
  rw [hrequest]
  exact List.prefix_rfl

end Runs

end Worker

end StorageLoad
