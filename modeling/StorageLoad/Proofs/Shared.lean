import StorageLoad.Proofs.Attempt
import StorageLoad.Proofs.Demand
import StorageLoad.Proofs.Double
import StorageLoad.Proofs.Invariant
import StorageLoad.Proofs.Namespace
import StorageLoad.Proofs.Options

/-!
A service in memory that others use as well.  As long as they keep to the plan of a worker's
namespace, what the worker finds is as planned, and no operation of it fails but one that waits
for replicas (`sustains_weighted`).
-/

namespace StorageLoad

open StorageLoad.Path Worker

/-- A time that is far below what a double can hold, in whatever unit. -/
def Clock.IsOrdinary (time : Int) : Prop :=
  time.natAbs ≤ 2 ^ 1019

theorem Clock.natAbs_elapsed_le_two_pow {start time : Int} {k : Nat}
    (hstart : start.natAbs ≤ 2 ^ k) (htime : time.natAbs ≤ 2 ^ k) :
    (elapsed start time).natAbs ≤ 2 ^ (k + 1) := by
  rw [elapsed, pow_succ]
  omega

theorem Clock.natAbs_elapsed_le {start time : Int} (hstart : IsOrdinary start)
    (htime : IsOrdinary time) : (elapsed start time).natAbs ≤ 2 ^ 1020 := by
  have hnext : 1020 = 1019 + 1 := rfl
  rw [hnext]
  exact natAbs_elapsed_le_two_pow hstart htime

/-- What a configuration needs besides its bounds for all to go well: sizes of segments that a
reader accepts, numbers that are not too long to be written, and times that can be told in
seconds. -/
structure Settings.IsPractical {𝕜 : Type} (c : Settings 𝕜) : Prop where
  writeSize : c.writeSize.upper ≤ Segment.maxPayload + Segment.headerLength
  appendSize : c.appendSize.upper ≤ Segment.maxPayload + Segment.headerLength
  fileCount : Value.isOversized c.fileCount = false
  readSize : Value.isOversized c.readSize.upper = false
  replication : Value.isOversized c.replication.upper = false
  pause : ∀ range ∈ c.pause, ∀ ms ∈ range, (Clock.seconds ms).isOk
  pollMs : (Clock.seconds c.pollMs).isOk

/-- A service in memory, calls that others make of it, and a clock. -/
structure Shared where
  memory : Memory
  /-- What others ask before each call. -/
  others : List (List Request)
  /-- What the clock shows from look to look. -/
  clock : Nat → Int

instance : Surroundings Shared where
  call request w :=
    (Storage.serve (w.others.headD []) w.memory).bind fun (_, memory) =>
      (Storage.answer request memory).map fun (answer, memory) =>
        (answer.mapError .store, { w with memory, others := w.others.tail })
  now w := (w.clock 0, { w with clock := fun n => w.clock (n + 1) })
  sleep _ w := (.ok (), w)

namespace Shared

variable {plan : Plan} {w : Shared}

/-- All is as planned, and will be as far as others are concerned. -/
structure Suits (plan : Plan) (w : Shared) : Prop where
  memory : w.memory.Suits plan
  others : ∀ requests ∈ w.others, ∀ request ∈ requests, plan.Allows request
  clock : ∀ n, Clock.IsOrdinary (w.clock n)

theorem Suits.now (h : w.Suits plan) :
    (Surroundings.now w).2.Suits plan ∧ Clock.IsOrdinary (Surroundings.now w).1 :=
  ⟨⟨h.memory, h.others, fun n => h.clock (n + 1)⟩, h.clock 0⟩

theorem Suits.exists_call (h : w.Suits plan) {request : Request} (hr : plan.Allows request) :
    ∃ answer w', Surroundings.call request w = some (answer.mapError .store, w') ∧ w'.Suits plan ∧
      plan.Expects request answer := by
  have hbefore : ∀ r ∈ w.others.headD [], plan.Allows r := by
    cases hothers : w.others with
    | nil => simp
    | cons requests rest => exact h.others requests (by simp [hothers])
  obtain ⟨answers, m, hserve, hm⟩ := h.memory.exists_serve hbefore
  obtain ⟨answer, m', hanswer, hm', hexpected⟩ := hm.exists_answer hr
  refine ⟨answer, { w with memory := m', others := w.others.tail }, ?_, ?_, hexpected⟩
  · change (Storage.serve (w.others.headD []) w.memory).bind _ = _
    rw [hserve]
    change (Storage.answer request m).map _ = _
    rw [hanswer]
    rfl
  · exact ⟨hm', fun requests hrequests =>
      h.others requests (List.mem_of_mem_tail hrequests), h.clock⟩

end Shared

/-- The one fault that an operation raises: waiting for replicas took too long. -/
def Fault.IsTimeout (kind : Kind) (fault : Fault) : Prop :=
  kind = .setReplication ∧ ∃ replicas path, fault = .store (.timedOut replicas path)

/-- Besides, an operation can find that there is no such path, which it tells as a failure. -/
def Fault.IsExpected (kind : Kind) (fault : Fault) : Prop :=
  (∃ path, fault = .store (.notFound path)) ∨ fault.IsTimeout kind

/-- A turn that goes as it should: an operation is selected, or none, and what is run returns, but
for one that waits for replicas in vain. -/
def Turn.IsExpected : Turn → Prop
  | looked _ => True
  | selected answer => ∃ choice, answer = .ok choice
  | ran kind answer => hasReturned answer ∨ ∃ fault, answer = .error fault ∧ fault.IsTimeout kind
  | paused answer => hasReturned answer

/-- All is as planned, and every turn up to now went as it should. -/
structure Scene.GoesWell {ρ : Type} (plan : Plan) (s : Scene Shared ρ) : Prop where
  world : s.world.Suits plan
  turns : ∀ turn ∈ s.journal.filterMap Event.turn?, turn.IsExpected

namespace Course

variable {ρ : Type} {plan : Plan}

theorem ensures_note {e : Event} (he : ∀ turn, e.turn? = some turn → turn.IsExpected) :
    (note e : Course Shared ρ Unit).Ensures (Scene.GoesWell plan) fun _ => True := by
  rintro s a s' ⟨hworld, hturns⟩ hs
  obtain ⟨-, rfl⟩ := Prod.mk.inj (Option.some.inj hs)
  refine ⟨⟨hworld, ?_⟩, trivial⟩
  intro turn hturn
  obtain ⟨d, hd, hturn'⟩ := List.mem_filterMap.mp hturn
  rcases List.mem_cons.mp hd with rfl | hd
  · exact he turn hturn'
  · exact hturns turn (List.mem_filterMap.mpr ⟨d, hd, hturn'⟩)

theorem ensures_turned {turn : Turn} (h : turn.IsExpected) :
    (note (.turned turn) : Course Shared ρ Unit).Ensures (Scene.GoesWell plan) fun _ => True := by
  apply ensures_note
  intro turn' hturn
  rw [← Option.some.inj hturn]
  exact h

theorem ensures_now :
    (now : Course Shared ρ Int).Ensures (Scene.GoesWell plan) Clock.IsOrdinary := by
  rintro s a s' ⟨hworld, hturns⟩ hs
  obtain ⟨rfl, rfl⟩ := Prod.mk.inj (Option.some.inj hs)
  obtain ⟨hnext, hreading⟩ := hworld.now
  exact ⟨⟨hnext, hturns⟩, hreading⟩

end Course

namespace Action

variable {ρ α : Type} {plan : Plan} {bad : Fault → Prop}

theorem ensures_note {e : Event} (he : e.turn? = none) :
    (note e : Action Shared ρ Unit).Ensures (Scene.GoesWell plan) (fun _ => True) bad :=
  ensures_ofCourse (Course.ensures_note (by simp [he]))

theorem ensures_draw {f : ρ → α × ρ} {good : α → Prop} (h : ∀ r, good (f r).1) :
    (draw f : Action Shared ρ α).Ensures (Scene.GoesWell plan) good bad := by
  apply ensures_ofCourse
  apply (Course.ensures_draw (fun _ _ h => ⟨h.world, h.turns⟩) f).mono
  rintro _ ⟨r, rfl⟩
  exact h r

theorem ensures_drawOutcome {f : ρ → Outcome α × ρ} {good : α → Prop}
    (h : ∀ r, ∃ a, (f r).1 = .ok a ∧ good a) :
    (drawOutcome f : Action Shared ρ α).Ensures (Scene.GoesWell plan) good bad := by
  apply (Course.ensures_draw (fun _ _ h => ⟨h.world, h.turns⟩) f).mono
  rintro _ ⟨r, rfl⟩
  obtain ⟨a, ha, hgood⟩ := h r
  rw [ha]
  exact hgood

theorem ensures_ask {request : Request} (hr : plan.Allows request)
    (hbad : ∀ path, bad (.store (.notFound path))) :
    (ask request : Action Shared ρ Reply).Ensures (Scene.GoesWell plan)
      (plan.Answers request) bad := by
  refine (ensures_note rfl).bind fun _ _ => ?_
  rintro s answer s' ⟨hworld, hturns⟩ hs
  obtain ⟨answer', w', hcall, hw', hexpected⟩ := hworld.exists_call hr
  obtain ⟨⟨answer, w''⟩, hcalled, heq⟩ := Option.map_eq_some_iff.mp hs
  obtain ⟨rfl, rfl⟩ := Prod.mk.inj heq
  obtain ⟨rfl, rfl⟩ := Prod.mk.inj (Option.some.inj (hcall.symm.trans hcalled))
  refine ⟨⟨hw', hturns⟩, ?_⟩
  rcases hexpected with ⟨path, rfl⟩ | ⟨reply, rfl, hreply⟩
  · exact hbad path
  · exact hreply

theorem ensures_now : (now : Action Shared ρ Int).Ensures (Scene.GoesWell plan)
    Clock.IsOrdinary bad :=
  ensures_ofCourse Course.ensures_now

theorem ensures_elapsed {start : Int} (hstart : Clock.IsOrdinary start) :
    (elapsed start : Action Shared ρ Int).Ensures (Scene.GoesWell plan)
      (fun ms => ms.natAbs ≤ 2 ^ 1020) bad := by
  apply ensures_ofCourse
  apply (Course.ensures_elapsed Course.ensures_now start).mono
  rintro _ ⟨time, htime, rfl⟩
  exact Clock.natAbs_elapsed_le hstart htime

theorem ensures_sleep {ms : Int} (h : (Clock.seconds ms).isOk) :
    (sleep ms : Action Shared ρ Unit).Ensures (Scene.GoesWell plan) (fun _ => True)
      bad := by
  cases hseconds : Clock.seconds ms with
  | error fault => simp [hseconds, Except.isOk, Except.toBool] at h
  | ok x =>
      refine (ensures_liftNumber hseconds rfl).bind fun _ _ => ?_
      refine (ensures_note rfl).bind fun _ _ => ?_
      intro s answer s' hinv hs
      obtain ⟨rfl, rfl⟩ := Prod.mk.inj (Option.some.inj hs)
      exact ⟨hinv, trivial⟩

end Action

theorem Range.isOversized_of_mem {range : Range} {n : Int} (hn : n ∈ range)
    (hlower : 0 ≤ range.lower) (hupper : Value.isOversized range.upper = false) :
    Value.isOversized n = false := by
  obtain ⟨hle, hge⟩ := hn
  exact Value.isOversized_of_natAbs_le (by omega) hupper

/-- A configuration that holds all that is needed, with a namespace below a row of names. -/
structure Settings.IsSettled (c : Settings Float) (space : Namespace)
    (base : List Name) : Prop where
  valid : c.IsValid
  practical : c.IsPractical
  space_eq : c.space = .ok space
  base_eq : space.baseDir = ofNames base

namespace Settings.IsSettled

variable {c : Settings Float} {space : Namespace} {base : List Name} {hbase : AllProper base}

theorem files (h : c.IsSettled space base) : Value.isOversized space.files = false := by
  rw [(Namespace.of_ofSizes h.space_eq).2.1]
  exact h.practical.fileCount

theorem files_le (h : c.IsSettled space base) : space.files ≤ 10 ^ digitLimit :=
  Nat.le_of_lt (Nat.not_le.mp (of_decide_eq_false h.files))

theorem hasFile (h : c.IsSettled space base) {p : Path} (hp : space.IsFile p) :
    (space.plan base hbase).HasFile p := by
  obtain ⟨number, hnumber, rfl⟩ := hp
  exact Namespace.hasFile_plan h.base_eq hnumber

theorem hasDirectory (h : c.IsSettled space base) {p : Path} (hp : space.IsDirectory p) :
    (space.plan base hbase).HasDirectory p := by
  obtain ⟨number, hnumber, rfl⟩ := hp
  exact Namespace.hasDirectory_plan h.base_eq hnumber

theorem writeSize (h : c.IsSettled space base) {size : Int} (hsize : size ∈ c.writeSize) :
    size ≤ Segment.maxPayload + Segment.headerLength :=
  Int.le_trans hsize.2 h.practical.writeSize

theorem appendSize (h : c.IsSettled space base) {size : Int} (hsize : size ∈ c.appendSize) :
    size ≤ Segment.maxPayload + Segment.headerLength :=
  Int.le_trans hsize.2 h.practical.appendSize

theorem allows (h : c.IsSettled space base) {request : Request} (hr : c.Asks space request) :
    (space.plan base hbase).Allows request := by
  cases request with
  | create path data replication blockSize =>
      obtain ⟨hpath, ⟨size, hsize, hdata⟩, -⟩ := hr
      exact ⟨h.hasFile hpath, hdata.isDrawn (h.writeSize hsize)⟩
  | append path data =>
      obtain ⟨hpath, size, hsize, hdata⟩ := hr
      exact ⟨h.hasFile hpath, hdata.isDrawn (h.appendSize hsize)⟩
  | read path length =>
      obtain ⟨hpath, n, -, hlength⟩ := hr
      exact ⟨h.hasFile hpath, n, hlength⟩
  | delete path => exact h.hasFile hr
  | rename source target => exact ⟨h.hasFile hr.1, h.hasFile hr.2⟩
  | setReplication path factor => exact h.hasFile hr.1
  | getReplication path => exact h.hasFile hr
  | listdir path => exact h.hasDirectory hr
  | mkdirs path => exact h.hasDirectory hr
  | isStored path => exact hr.elim

end Settings.IsSettled

/-- All statistics can be written. -/
def Operation.HaveTexts (outputs : List Record) : Prop :=
  ∀ r ∈ outputs, r.text.isOk

namespace Operation

open StorageLoad.Action Record

section Texts

variable {n : Int} {k : Nat} {opType measurement : String} {r : Record}
  {outputs rest : List Record}

theorem haveTexts_nil : HaveTexts [] := by
  simp [HaveTexts]

theorem HaveTexts.cons (hrest : HaveTexts rest) (h : r.text.isOk) : HaveTexts (r :: rest) :=
  List.forall_mem_cons.mpr ⟨h, hrest⟩

theorem HaveTexts.append (h : HaveTexts outputs) (hrest : HaveTexts rest) :
    HaveTexts (outputs ++ rest) :=
  List.forall_mem_append.mpr ⟨h, hrest⟩

theorem isOk_text_of_le_two_pow (hk : k < digitLimit) (h : n.natAbs ≤ 2 ^ k) :
    (long opType measurement n).text.isOk :=
  isOk_text_long (Value.isOversized_of_le_two_pow hk h) opType measurement

theorem isOk_text_took (kind : Kind) (h : n.natAbs ≤ 2 ^ 1020) : (took kind n).text.isOk :=
  isOk_text_of_le_two_pow (by decide) h

theorem isOk_text_written {data : Bytes} (h : Segment.IsDrawn data) :
    (long opType measurement data.length).text.isOk := by
  have hlength := h.isWhole.length_le
  rw [Segment.maxPayload, Segment.headerLength] at hlength
  exact isOk_text_of_le_two_pow (k := 41) (by decide) (by omega)

end Texts

/-- Where all is as planned, the action leaves it so, and returns statistics that can be written,
or fails as an operation of the kind may. -/
def GoesWell {ρ : Type} (plan : Plan) (kind : Kind) (action : Action Shared ρ (List Record)) :
    Prop :=
  action.Ensures (Scene.GoesWell plan) HaveTexts (Fault.IsExpected kind)

section Kinds

variable {ρ : Type} [RandomSource ρ] {c : Settings Float} {space : Namespace} {base : List Name}
  {hbase : AllProper base} {kind : Kind}

theorem isExpected_notFound (path : Path) : Fault.IsExpected kind (.store (.notFound path)) :=
  Or.inl ⟨path, rfl⟩

theorem haveTexts_succeeded (kind : Kind) : HaveTexts [succeeded kind] :=
  haveTexts_nil.cons (isOk_text_one _ _)

theorem haveTexts_missed (kind : Kind) : HaveTexts [missed kind] :=
  haveTexts_nil.cons (isOk_text_one _ _)

theorem ensures_chooseFile (h : c.IsSettled space base) {bad : Fault → Prop} :
    (drawOutcome space.chooseFile : Action Shared ρ Path).Ensures
      (Scene.GoesWell (space.plan base hbase)) space.IsFile bad :=
  ensures_drawOutcome (space.exists_chooseFile h.files_le)

theorem ensures_chooseDirectory (h : c.IsSettled space base) {bad : Fault → Prop} :
    (drawOutcome space.chooseDirectory : Action Shared ρ Path).Ensures
      (Scene.GoesWell (space.plan base hbase)) space.IsDirectory bad :=
  ensures_drawOutcome (space.exists_chooseDirectory h.files_le)

theorem ensures_drawRange (range : Range) {plan : Plan} {bad : Fault → Prop} :
    (draw range.draw : Action Shared ρ Int).Ensures (Scene.GoesWell plan) (· ∈ range)
      bad :=
  ensures_draw range.draw_mem

theorem goesWell_create (h : c.IsSettled space base) :
    GoesWell (space.plan base hbase) .create
      (create c space : Action Shared ρ (List Record)) := by
  refine (ensures_chooseFile h).bind fun path hpath => ?_
  refine (ensures_drawRange c.writeSize).bind fun size hsize => ?_
  refine (ensures_drawRange c.replication).bind fun replication _ => ?_
  refine (ensures_drawRange c.blockSize).bind fun blockSize _ => ?_
  refine (ensures_drawOutcome (Segment.exists_draw (h.writeSize hsize))).bind fun data hdata => ?_
  have hallows : (space.plan base hbase).Allows
      (.create path data (.int replication) (.int blockSize)) := ⟨h.hasFile hpath, hdata⟩
  refine (ensures_ask hallows isExpected_notFound).bind ?_
  rintro _ rfl
  refine (ensures_liftNumber rfl rfl).bind ?_
  rintro _ rfl
  refine ensures_pure (HaveTexts.cons (HaveTexts.cons (haveTexts_nil.cons ?_) ?_) ?_)
  · exact isOk_text_written hdata
  · exact isOk_text_one _ _
  · exact isOk_text_one _ _

theorem goesWell_append (h : c.IsSettled space base) :
    GoesWell (space.plan base hbase) .append
      (append c space : Action Shared ρ (List Record)) := by
  refine (ensures_chooseFile h).bind fun path hpath => ?_
  refine (ensures_drawRange c.appendSize).bind fun size hsize => ?_
  refine (ensures_drawOutcome (Segment.exists_draw (h.appendSize hsize))).bind fun data hdata =>
    ?_
  have hallows : (space.plan base hbase).Allows (.append path data) := ⟨h.hasFile hpath, hdata⟩
  refine (ensures_ask hallows isExpected_notFound).bind ?_
  rintro _ rfl
  refine (ensures_liftNumber rfl rfl).bind ?_
  rintro _ rfl
  refine ensures_pure (HaveTexts.cons (haveTexts_nil.cons ?_) ?_)
  · exact isOk_text_written hdata
  · exact isOk_text_one _ _

theorem goesWell_delete (h : c.IsSettled space base) :
    GoesWell (space.plan base hbase) .delete (delete space : Action Shared ρ (List Record)) := by
  refine (ensures_chooseFile h).bind fun path hpath => ?_
  have hallows : (space.plan base hbase).Allows (.delete path) := h.hasFile hpath
  refine (ensures_ask hallows isExpected_notFound).bind fun done _ => ensures_pure ?_
  split
  · exact haveTexts_succeeded .delete
  · exact haveTexts_missed .delete

theorem goesWell_rename (h : c.IsSettled space base) :
    GoesWell (space.plan base hbase) .rename (rename space : Action Shared ρ (List Record)) := by
  refine (ensures_chooseFile h).bind fun source hsource => ?_
  refine (ensures_chooseFile h).bind fun target htarget => ?_
  have hallows : (space.plan base hbase).Allows (.rename source target) :=
    ⟨h.hasFile hsource, h.hasFile htarget⟩
  refine (ensures_ask hallows isExpected_notFound).bind fun done _ => ensures_pure ?_
  split
  · exact haveTexts_succeeded .rename
  · exact haveTexts_missed .rename

theorem goesWell_read (h : c.IsSettled space base) :
    GoesWell (space.plan base hbase) .read (read c space : Action Shared ρ (List Record)) := by
  refine (ensures_chooseFile h).bind fun path hpath => ?_
  refine (ensures_drawRange c.readSize).bind fun length hlength => ?_
  have hallows : (space.plan base hbase).Allows (.read path (.int length)) :=
    ⟨h.hasFile hpath, length, rfl⟩
  refine (ensures_ask hallows isExpected_notFound).bind ?_
  rintro _ ⟨data, verdict, rfl, hverdict, hshort⟩
  have hverify : (Reply.bytes data).verify = .ok verdict := by
    change (Segment.verify data).mapError Fault.segment = _
    rw [hverdict]
    rfl
  refine (ensures_lift hverify rfl).bind ?_
  rintro _ rfl
  obtain ⟨hbytes, hchunks⟩ := Segment.le_of_verify hverdict
  have hnonneg : 0 ≤ length := Int.le_trans h.valid.readSize hlength.1
  have hlong := hshort length rfl hnonneg
  have hwritten : ∀ n : Nat, (n : Int) ≤ length → ∀ measurement,
      (long Kind.read.name measurement n).text.isOk := by
    intro n hn measurement
    apply isOk_text_long
    apply Value.isOversized_of_natAbs_le (n := length) (by omega)
    exact Range.isOversized_of_mem hlength h.valid.readSize h.practical.readSize
  refine ensures_pure
    (HaveTexts.cons (HaveTexts.cons (HaveTexts.cons (haveTexts_nil.cons ?_) ?_) ?_) ?_)
  · exact hwritten _ (by omega) _
  · exact hwritten _ (by omega) _
  · exact hwritten _ (by omega) _
  · exact isOk_text_one _ _

theorem goesWell_ls (h : c.IsSettled space base) :
    GoesWell (space.plan base hbase) .ls (ls space : Action Shared ρ (List Record)) := by
  refine (ensures_chooseDirectory h).bind fun path hpath => ?_
  have hallows : (space.plan base hbase).Allows (.listdir path) := h.hasDirectory hpath
  refine (ensures_ask hallows isExpected_notFound).bind ?_
  rintro _ ⟨names, listed, hnames, hproper, rfl, hnodup, hlisted⟩
  have hcount : listed.length ≤ space.files := by
    obtain ⟨number, hnumber, rfl⟩ := hpath
    rw [Namespace.directory_eq_ofNames hbase h.base_eq,
      ofNames_inj (Namespace.allProper_directoryPlace hbase number) hproper] at hnames
    rw [← hnames] at hlisted
    exact Namespace.length_listed_le hnodup hlisted
  have hlength : (Reply.value (.list (listed.map fun name => .text (toText name)))).length =
      .ok listed.length :=
    congrArg Except.ok (List.length_map _)
  refine (ensures_liftShape hlength rfl).bind ?_
  rintro _ rfl
  refine ensures_pure (HaveTexts.cons (haveTexts_nil.cons ?_) ?_)
  · apply isOk_text_long
    exact Value.isOversized_of_natAbs_le (by omega) h.files
  · exact isOk_text_one _ _

theorem goesWell_mkdir (h : c.IsSettled space base) :
    GoesWell (space.plan base hbase) .mkdir (mkdir space : Action Shared ρ (List Record)) := by
  refine (ensures_chooseDirectory h).bind fun path hpath => ?_
  have hallows : (space.plan base hbase).Allows (.mkdirs path) := h.hasDirectory hpath
  refine (ensures_ask hallows isExpected_notFound).bind fun done _ => ensures_pure ?_
  split
  · exact HaveTexts.cons (haveTexts_nil.cons (isOk_text_one _ _)) (isOk_text_one _ _)
  · exact haveTexts_missed .mkdir

omit [RandomSource ρ] in
theorem ensures_awaitReplicas (h : c.IsSettled space base) {path : Path}
    (hpath : space.IsFile path) {replicas : Int} (hreplicas : replicas ∈ c.replication)
    {start : Int} (hstart : Clock.IsOrdinary start) (polls : Nat) :
    (awaitReplicas c path replicas start polls : Action Shared ρ Unit).Ensures
      (Scene.GoesWell (space.plan base hbase)) (fun _ => True)
      (Fault.IsExpected .setReplication) := by
  induction polls with
  | zero => exact ensures_ofCourse Course.ensures_endless
  | succ polls ih =>
      have hallows : (space.plan base hbase).Allows (.getReplication path) := h.hasFile hpath
      rw [awaitReplicas]
      refine (ensures_ask hallows isExpected_notFound).bind fun factor _ => ?_
      split
      · exact (ensures_elapsed hstart).bind fun time _ => ensures_note rfl
      · refine (ensures_elapsed hstart).bind fun time _ => ?_
        split
        · apply ensures_throw
          have hshort : Value.isOversized replicas = false := by
            apply Range.isOversized_of_mem hreplicas _ h.practical.replication
            exact Int.le_trans (by decide) h.valid.replication
          rw [Fault.writing, List.any_cons, hshort]
          exact Or.inr ⟨rfl, replicas, path, rfl⟩
        · exact (ensures_sleep h.practical.pollMs).bind fun _ _ => ih

theorem goesWell_setReplication (h : c.IsSettled space base) (polls : Nat) :
    GoesWell (space.plan base hbase) .setReplication
      (setReplication polls c space : Action Shared ρ (List Record)) := by
  refine (ensures_chooseFile h).bind fun path hpath => ?_
  refine (ensures_drawRange c.replication).bind fun replicas hreplicas => ?_
  have hallows : (space.plan base hbase).Allows (.setReplication path (.int replicas)) :=
    h.hasFile hpath
  refine (ensures_ask hallows isExpected_notFound).bind fun done _ => ?_
  split
  · refine ensures_now.bind fun start hstart => ?_
    refine (ensures_awaitReplicas h hpath hreplicas hstart polls).bind fun _ _ => ?_
    exact ensures_pure (haveTexts_succeeded .setReplication)
  · exact ensures_pure (haveTexts_missed .setReplication)

theorem ensures_pause (h : c.IsPractical) (hpause : c.pause.isSome) {plan : Plan}
    {bad : Fault → Prop} :
    (pause c : Action Shared ρ (List Record)).Ensures (Scene.GoesWell plan) HaveTexts
      bad := by
  obtain ⟨range, hrange⟩ := Option.isSome_iff_exists.mp hpause
  rw [pause, hrange]
  refine (ensures_drawRange range).bind fun ms hms => ?_
  refine ensures_now.bind fun start hstart => ?_
  refine (ensures_sleep (h.pause range hrange ms hms)).bind fun _ _ => ?_
  refine (ensures_elapsed hstart).bind fun time htime => ensures_pure (HaveTexts.cons ?_ ?_)
  · exact haveTexts_nil.cons (isOk_text_took .sleep htime)
  · exact isOk_text_one _ _

theorem goesWell_perform (h : c.IsSettled space base) (polls : Nat) (hkind : kind ≠ .sleep) :
    GoesWell (space.plan base hbase) kind
      (perform polls c space kind : Action Shared ρ (List Record)) := by
  cases kind with
  | create => exact goesWell_create h
  | append => exact goesWell_append h
  | delete => exact goesWell_delete h
  | rename => exact goesWell_rename h
  | setReplication => exact goesWell_setReplication h polls
  | read => exact goesWell_read h
  | ls => exact goesWell_ls h
  | mkdir => exact goesWell_mkdir h
  | sleep => exact absurd rfl hkind

/-- An operation returns statistics that can be written, unless it waits for replicas in vain. -/
theorem ensures_run (h : c.IsSettled space base) (polls : Nat) (hkind : kind ≠ .sleep) :
    (run polls c kind : Action Shared ρ (List Record)).Ensures
      (Scene.GoesWell (space.plan base hbase)) HaveTexts (Fault.IsTimeout kind) := by
  rw [run, if_neg hkind]
  refine (ensures_lift h.space_eq rfl).bind ?_
  rintro _ rfl
  refine ensures_now.bind fun start hstart => ?_
  refine (goesWell_perform h polls hkind).run.bind fun answer hanswer => ?_
  cases answer with
  | ok outputs =>
      refine (ensures_elapsed hstart).bind fun time htime => ensures_pure ?_
      exact HaveTexts.append hanswer (haveTexts_nil.cons (isOk_text_took kind htime))
  | error fault =>
      dsimp only
      split
      · refine (ensures_elapsed hstart).bind fun time htime => ensures_pure ?_
        refine HaveTexts.cons (HaveTexts.cons (haveTexts_nil.cons ?_) ?_) ?_
        · exact isOk_text_took kind htime
        · exact isOk_text_one _ _
        · exact isOk_text_one _ _
      · rename_i hfamily
        -- A path that is not there was told as a failure before, so only a timeout is raised.
        apply ensures_throw
        rcases hanswer with ⟨path, rfl⟩ | htimeout
        · exact absurd rfl hfamily
        · exact htimeout

end Kinds

end Operation

namespace Worker

variable {ρ : Type} [RandomSource ρ] {c : Settings Float} {space : Namespace} {base : List Name}
  {hbase : AllProper base}

theorem hasReturned_ok {outputs : List Record} (h : Operation.HaveTexts outputs) :
    hasReturned (.ok outputs) :=
  List.all_eq_true.mpr h

open Course

omit [RandomSource ρ] in
theorem ensures_emitAll {plan : Plan} (outputs : List Record) :
    Course.Ensures (Scene.GoesWell plan) (outputs.forM emit : Action Shared ρ Unit).run
      fun _ => True := by
  induction outputs with
  | nil => exact ensures_pure trivial
  | cons output outputs ih =>
      rw [run_emitAll_cons]
      cases output.text with
      | error fault => exact ensures_pure trivial
      | ok text => exact (ensures_note (by simp [Event.turn?])).bind fun _ _ => ih

theorem ensures_attempt {plan : Plan} {polls : Nat} {kind : Kind}
    {turn : Outcome (List Record) → Turn}
    (hrun : Course.Ensures (Scene.GoesWell plan)
      (Operation.run polls c kind : Action Shared ρ (List Record)).run fun answer =>
        (turn answer).IsExpected) (number : Nat) :
    Course.Ensures (Scene.GoesWell plan)
      (attempt polls c turn number kind : Action Shared ρ Unit).run fun _ => True := by
  rw [run_attempt]
  refine (ensures_note (by simp [Event.turn?])).bind fun _ _ => ?_
  refine ensures_now.bind fun start _ => hrun.bind fun answer hanswer => ?_
  refine (ensures_turned hanswer).bind fun _ _ => ?_
  cases answer with
  | error fault => exact ensures_pure trivial
  | ok outputs =>
      refine (Course.ensures_elapsed ensures_now start).bind fun time _ => ?_
      exact (ensures_note (by simp [Event.turn?])).bind fun _ _ => ensures_emitAll outputs

/-- Every turn of a worker goes as it should, as long as all is as planned. -/
theorem sustains_weighted (h : c.IsSettled space base) (polls : Nat) :
    Sustains (Scene.GoesWell (space.plan base hbase)) Clock.IsOrdinary
      (weighted c : Policy Tally ρ) polls c where
  draw := fun _ _ hs => ⟨hs.world, hs.turns⟩
  note := by
    intro e he
    apply ensures_note
    intro turn hturn
    cases e with
    | turned turn => exact he.elim
    | _ => cases hturn
  now := ensures_now
  looked := fun _ => ensures_turned trivial
  selected := by
    intro hduration start time t r hstart htime
    have hbound : (Clock.elapsed start time).natAbs ≤ 2 ^ 1020 * c.durationMs.natAbs :=
      Nat.le_trans (Clock.natAbs_elapsed_le hstart htime) (Nat.le_mul_of_pos_right _ (by omega))
    exact ensures_turned
      (exists_choice h.valid.kinds h.space_eq (Clock.elapsed_nonneg start time)
        hduration hbound t r)
  ran := by
    intro elapsed t r kind hchoice number
    have hchooses : (weighted c : Policy Tally ρ).Chooses (· ≠ .sleep) :=
      chooses_weighted h.valid.kinds
    refine ensures_attempt ?_ number
    apply (Operation.ensures_run h polls (hchooses _ _ _ _ kind hchoice)).mono
    intro answer hanswer
    cases answer with
    | error fault => exact Or.inr ⟨fault, rfl, hanswer⟩
    | ok outputs => exact Or.inl (hasReturned_ok hanswer)
  paused := by
    intro hpause number
    have hrun : Operation.run polls c .sleep =
        (Operation.pause c : Action Shared ρ (List Record)) := by
      rw [Operation.run, if_pos rfl]
    have hpaused : (Operation.pause c : Action Shared ρ (List Record)).Ensures
        (Scene.GoesWell (space.plan base hbase)) Operation.HaveTexts fun _ => False :=
      Operation.ensures_pause h.practical hpause
    refine ensures_attempt ?_ number
    rw [hrun]
    apply hpaused.mono
    intro answer hanswer
    cases answer with
    | error fault => exact hanswer.elim
    | ok outputs => exact hasReturned_ok hanswer

end Worker

end StorageLoad
