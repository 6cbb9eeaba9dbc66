import Mathlib.Data.Set.Defs
import StorageLoad.Proofs.Memory.Reachable
import StorageLoad.Proofs.Memory.Written

/-!
A plan says which places may hold files and which directories.  Calls that keep to a plan leave
the service in memory as planned, and find it so: they are answered as they should be, or told
that nothing is there (`Suits.exists_answer`).
-/

namespace StorageLoad

open StorageLoad.Path Segment

/-- The places for files and for directories, each as a row of names.  Whatever lies above a place
is one for a directory, up to the top. -/
structure Plan where
  files : Set (List Name)
  directories : Set (List Name)
  proper : ∀ names, names ∈ files ∨ names ∈ directories → AllProper names
  top : [] ∈ directories
  above : ∀ names name, names ++ [name] ∈ files ∨ names ++ [name] ∈ directories →
    names ∈ directories
  disjoint : ∀ names ∈ files, names ∉ directories

namespace Plan

variable (plan : Plan) {a b names : List Name} {name : Name} {p : Path}

def HasFile (p : Path) : Prop :=
  ∃ names ∈ plan.files, p = ofNames names

def HasDirectory (p : Path) : Prop :=
  ∃ names ∈ plan.directories, p = ofNames names

/-- The calls that keep to the plan and write nothing but drawn segments. -/
def Allows : Request → Prop
  | .create path data _ _ => plan.HasFile path ∧ IsDrawn data
  | .append path data => plan.HasFile path ∧ IsDrawn data
  | .read path length => plan.HasFile path ∧ ∃ n, length = .int n
  | .delete path => plan.HasFile path
  | .rename source target => plan.HasFile source ∧ plan.HasFile target
  | .setReplication path _ => plan.HasFile path
  | .getReplication path => plan.HasFile path
  | .listdir path => plan.HasDirectory path
  | .mkdirs path => plan.HasDirectory path
  | .isStored _ => False

/-- The answers that a call can have where everything is as planned. -/
def Answers : Request → Reply → Prop
  | .create _ data _ _, reply => reply = .int data.length
  | .append _ data, reply => reply = .int data.length
  | .read _ length, reply => ∃ data verdict, reply = .bytes data ∧ verify data = .ok verdict ∧
      ∀ n, length = .int n → 0 ≤ n → (data.length : Int) ≤ n
  | .listdir path, reply => ∃ a, ∃ listed : List Name, path = ofNames a ∧ AllProper a ∧
      reply = .value (.list (listed.map fun name => .text (toText name))) ∧ listed.Nodup ∧
        ∀ name ∈ listed, a ++ [name] ∈ plan.files ∨ a ++ [name] ∈ plan.directories
  | _, _ => True

/-- What a call comes to where everything is as planned: an answer, or the fault that nothing is
there. -/
def Expects (request : Request) (answer : Except StoreFault Reply) : Prop :=
  (∃ path, answer = .error (.notFound path)) ∨ ∃ reply, answer = .ok reply ∧
    plan.Answers request reply

variable {plan}

theorem mem_directories_of_isPrefix (hb : b ∈ plan.directories) (h : a <+: b) :
    a ∈ plan.directories := by
  induction b using List.reverseRecOn with
  | nil => rwa [List.prefix_nil.mp h]
  | append_singleton b name ih =>
      rcases List.prefix_concat_iff.mp h with rfl | h
      · exact hb
      · exact ih (plan.above b name (Or.inr hb)) h

theorem exists_append_of_mem_files (h : names ∈ plan.files) :
    ∃ ns name, names = ns ++ [name] ∧ AllProper (ns ++ [name]) ∧ ns ∈ plan.directories := by
  cases names using List.reverseRecOn with
  | nil => exact absurd plan.top (plan.disjoint [] h)
  | append_singleton ns name =>
      exact ⟨ns, name, rfl, plan.proper _ (Or.inl h), plan.above ns name (Or.inl h)⟩

theorem not_isPrefix_of_mem_files (ha : a ∈ plan.files) (hb : b ∈ plan.files) (hne : a ≠ b) :
    ¬ a <+: b := by
  intro hpre
  obtain ⟨ns, name, rfl, -, hns⟩ := exists_append_of_mem_files hb
  rcases List.prefix_concat_iff.mp hpre with heq | hpre
  · exact hne heq
  · exact plan.disjoint a ha (mem_directories_of_isPrefix hns hpre)

theorem HasFile.isNormal (h : plan.HasFile p) : p.IsNormal := by
  obtain ⟨names, hnames, rfl⟩ := h
  exact isNormal_ofNames (plan.proper names (Or.inl hnames))

theorem HasDirectory.isNormal (h : plan.HasDirectory p) : p.IsNormal := by
  obtain ⟨names, hnames, rfl⟩ := h
  exact isNormal_ofNames (plan.proper names (Or.inr hnames))

theorem HasFile.ne_slash (h : plan.HasFile p) : p ≠ ['/'] := by
  obtain ⟨names, hnames, rfl⟩ := h
  obtain ⟨ns, name, rfl, hproper, -⟩ := exists_append_of_mem_files hnames
  rw [ofNames_of_ne_nil (by simp)]
  exact stem_ne_slash hproper

theorem HasFile.not_below (hp : plan.HasFile p) {q : Path} (hq : plan.HasFile q) :
    ¬ p ++ ['/'] <+: q := by
  obtain ⟨a, ha, rfl⟩ := hp
  obtain ⟨b, hb, rfl⟩ := hq
  obtain ⟨ns, name, rfl, hproper, -⟩ := exists_append_of_mem_files ha
  rw [ofNames_append_slash_isPrefix_iff hproper (plan.proper b (Or.inl hb)) (by simp)]
  rintro ⟨hpre, hne⟩
  exact not_isPrefix_of_mem_files ha hb hne hpre

theorem Allows.respectsTree {request : Request} (h : plan.Allows request) :
    request.RespectsTree := by
  cases request with
  | create path data replication blockSize => exact h.1.isNormal
  | append path data => exact h.1.isNormal
  | read path length => exact h.1.isNormal
  | delete path => exact ⟨HasFile.isNormal h, HasFile.ne_slash h⟩
  | rename source target =>
      exact ⟨h.1.isNormal, h.2.isNormal, h.1.ne_slash, h.1.not_below h.2⟩
  | setReplication path factor => exact HasFile.isNormal h
  | getReplication path => exact HasFile.isNormal h
  | listdir path => exact HasDirectory.isNormal h
  | mkdirs path => exact HasDirectory.isNormal h
  | isStored path => exact h.elim

theorem Allows.isDrawn {request : Request} (h : plan.Allows request) {data : Bytes}
    (hdata : request.written? = some data) : IsDrawn data := by
  cases request with
  | create path written replication blockSize =>
      obtain rfl := Option.some.inj hdata
      exact h.2
  | append path written =>
      obtain rfl := Option.some.inj hdata
      exact h.2
  | _ => cases hdata

end Plan

namespace Memory

variable {plan : Plan} {m m' : Memory} {names : List Name} {e : Entry} {p : Path}

/-- Whether a plan has a place for an entry. -/
def Entry.FitsAt (plan : Plan) (names : List Name) (e : Entry) : Prop :=
  if e.isDirectory then names ∈ plan.directories else names ∈ plan.files

/-- What is stored stands where the plan has a place for it. -/
def IsPlaced (plan : Plan) (m : Memory) : Prop :=
  ∀ names, AllProper names → ∀ e, m.get? (ofNames names) = some e → e.FitsAt plan names

theorem Entry.fitsAt_directory (h : names ∈ plan.directories) :
    Entry.directory.FitsAt plan names :=
  h

theorem Entry.fitsAt_of_file (hfile : e.isDirectory = false) (h : names ∈ plan.files) :
    e.FitsAt plan names := by
  rwa [FitsAt, hfile, if_neg Bool.false_ne_true]

namespace IsPlaced

theorem isFree (h : m.IsPlaced plan) (hnames : names ∈ plan.files) :
    m.IsFree (ofNames names) := by
  intro e he
  have hfits := h names (plan.proper names (Or.inl hnames)) e he
  rw [Entry.FitsAt] at hfits
  split at hfits
  · exact absurd hfits (plan.disjoint names hnames)
  · rename_i hfile
    rwa [Bool.not_eq_true] at hfile

theorem isDirectory (h : m.IsPlaced plan) (hnames : names ∈ plan.directories)
    (he : m.get? (ofNames names) = some e) : e.isDirectory := by
  have hfits := h names (plan.proper names (Or.inr hnames)) e he
  rw [Entry.FitsAt] at hfits
  split at hfits
  · assumption
  · exact absurd hnames (plan.disjoint names hfits)

theorem isOpen (h : m.IsPlaced plan) (hnames : names ∈ plan.directories) : m.IsOpen names :=
  fun _ ha _ he => h.isDirectory (Plan.mem_directories_of_isPrefix hnames ha) he

theorem nothing_or_file (h : m.IsPlaced plan) (hp : plan.HasFile p) :
    m.get? p = none ∨ ∃ e, m.get? p = some e ∧ m.file p = .ok e := by
  obtain ⟨names, hnames, rfl⟩ := hp
  cases he : m.get? (ofNames names) with
  | none => exact Or.inl rfl
  | some e => exact Or.inr ⟨e, rfl, file_eq_ok_iff.mpr ⟨he, h.isFree hnames e he⟩⟩

theorem put (h : m.IsPlaced plan) (hnames : AllProper names) (he : e.FitsAt plan names) :
    (m.put (ofNames names) e).IsPlaced plan := by
  intro b hb d hd
  rw [get?_put] at hd
  split at hd
  · rename_i heq
    rw [(ofNames_inj hb hnames).mp heq, ← Option.some.inj hd]
    exact he
  · exact h b hb d hd

theorem put_of_file (h : m.IsPlaced plan) (hp : plan.HasFile p) (hfile : e.isDirectory = false) :
    (m.put p e).IsPlaced plan := by
  obtain ⟨names, hnames, rfl⟩ := hp
  exact h.put (plan.proper names (Or.inl hnames)) (Entry.fitsAt_of_file hfile hnames)

theorem grown (h : m.IsPlaced plan) (hnames : names ∈ plan.directories) (hm' : m.Grown names m') :
    m'.IsPlaced plan := by
  intro b hb e he
  by_cases hpre : b <+: names
  · have hplace := Plan.mem_directories_of_isPrefix hnames hpre
    cases hd : m.get? (ofNames b) with
    | none =>
        rw [hm'.made b hpre hd] at he
        rw [← Option.some.inj he]
        exact Entry.fitsAt_directory hplace
    | some d =>
        rw [hm'.kept _ d hd] at he
        rw [← Option.some.inj he]
        exact h b hb d hd
  · rw [hm'.get?_of_not_isPrefix (plan.proper names (Or.inr hnames)) hb hpre] at he
    exact h b hb e he

end IsPlaced

theorem isPlaced_fresh (lag : Int) : (fresh lag).IsPlaced plan := by
  intro names hnames e he
  rw [get?_fresh] at he
  split at he
  · rename_i heq
    rw [← ofNames_nil, ofNames_inj hnames (List.forall_mem_nil _)] at heq
    rw [heq, ← Option.some.inj he]
    exact Entry.fitsAt_directory plan.top
  · cases he

/-- The call ends, is answered as expected, and leaves everything in its place. -/
def Behaves (plan : Plan) (request : Request) (m : Memory) : Prop :=
  ∃ answer m', Storage.answer request m = some (answer, m') ∧ m'.IsPlaced plan ∧
    plan.Expects request answer

/-- As planned: a tree of files that hold nothing but drawn segments, everything in its place. -/
structure Suits (plan : Plan) (m : Memory) : Prop where
  orderly : m.IsOrderly
  drawn : m.HoldsOnly IsDrawn
  placed : m.IsPlaced plan

theorem suits_fresh (lag : Int) : (fresh lag).Suits plan where
  orderly := ⟨isSorted_fresh lag, isTree_fresh lag⟩
  drawn := holdsOnly_fresh lag
  placed := isPlaced_fresh lag

namespace Suits

theorem create (h : m.Suits plan) (hp : plan.HasFile p) (data : Bytes)
    (replication blockSize : Value) : m.Behaves plan (.create p data replication blockSize) := by
  obtain ⟨names, hnames, rfl⟩ := hp
  obtain ⟨ns, name, rfl, hproper, hns⟩ := Plan.exists_append_of_mem_files hnames
  obtain ⟨m', hm', hcreate⟩ := h.orderly.2.create_of_isOpen hproper (h.placed.isOpen hns)
    (h.placed.isFree hnames) data replication blockSize
  refine ⟨_, _, hcreate, ?_, Or.inr ⟨_, rfl, rfl⟩⟩
  exact (h.placed.grown hns hm').put hproper (Entry.fitsAt_of_file rfl hnames)

theorem mkdirs (h : m.Suits plan) (hp : plan.HasDirectory p) : m.Behaves plan (.mkdirs p) := by
  obtain ⟨names, hnames, rfl⟩ := hp
  obtain ⟨m', hm', hmkdirs⟩ := h.orderly.2.mkdirs_of_isOpen (plan.proper names (Or.inr hnames))
    (h.placed.isOpen hnames)
  exact ⟨_, _, hmkdirs, h.placed.grown hnames hm', Or.inr ⟨_, rfl, trivial⟩⟩

theorem behaves_of_none (h : m.Suits plan) {request : Request} {path : Path}
    (heq : Storage.answer request m = some (.error (.notFound path), m)) :
    m.Behaves plan request :=
  ⟨_, _, heq, h.placed, Or.inl ⟨path, rfl⟩⟩

theorem append (h : m.Suits plan) (hp : plan.HasFile p) (data : Bytes) :
    m.Behaves plan (.append p data) := by
  rcases h.placed.nothing_or_file hp with hnone | ⟨e, -, hfile⟩
  · apply h.behaves_of_none
    exact congrArg some (by rw [Memory.append, file_eq_error_of_none hnone])
  · refine ⟨.ok (.int data.length), m.put p { e with data := e.data ++ data }, ?_, ?_, ?_⟩
    · exact congrArg some (by rw [Memory.append, hfile])
    · exact h.placed.put_of_file hp (file_eq_ok_iff.mp hfile).2
    · exact Or.inr ⟨_, rfl, rfl⟩

theorem setReplication (h : m.Suits plan) (hp : plan.HasFile p) (factor : Value) :
    m.Behaves plan (.setReplication p factor) := by
  rcases h.placed.nothing_or_file hp with hnone | ⟨e, -, hfile⟩
  · apply h.behaves_of_none
    exact congrArg some (by rw [Memory.setReplication, file_eq_error_of_none hnone])
  · refine ⟨.ok .yes, _, congrArg some (by rw [Memory.setReplication, hfile]), ?_, ?_⟩
    · exact h.placed.put_of_file hp (file_eq_ok_iff.mp hfile).2
    · exact Or.inr ⟨_, rfl, trivial⟩

theorem getReplication (h : m.Suits plan) (hp : plan.HasFile p) :
    m.Behaves plan (.getReplication p) := by
  rcases h.placed.nothing_or_file hp with hnone | ⟨e, -, hfile⟩
  · apply h.behaves_of_none
    exact congrArg some (by rw [Memory.getReplication, file_eq_error_of_none hnone])
  · refine ⟨.ok (.value e.polled.replication), _,
      congrArg some (by rw [Memory.getReplication, hfile]), ?_, ?_⟩
    · apply h.placed.put_of_file hp
      rw [e.isDirectory_polled, (file_eq_ok_iff.mp hfile).2]
    · exact Or.inr ⟨_, rfl, trivial⟩

theorem exists_verdict (h : m.Suits plan) {p : Path} {length : Value} {data : Bytes}
    (hread : (m.read p length).1 = .ok (.bytes data)) : ∃ verdict, verify data = .ok verdict := by
  obtain ⟨e, hfile, hpre⟩ := exists_file_of_read hread
  obtain ⟨segments, hsegments, hdata⟩ := h.drawn.of_file hfile
  rw [hdata] at hpre
  have hcut := verify_take_flatten hsegments hpre.length_le
  rw [← List.prefix_iff_eq_take.mp hpre] at hcut
  exact ⟨_, hcut⟩

theorem read (h : m.Suits plan) (hp : plan.HasFile p) (n : Int) :
    m.Behaves plan (.read p (.int n)) := by
  rcases h.placed.nothing_or_file hp with hnone | ⟨e, -, hfile⟩
  · apply h.behaves_of_none
    exact congrArg some (by rw [Memory.read, file_eq_error_of_none hnone])
  · have hread : m.read p (.int n) = (.ok (.bytes (bytesBefore n e.data)), m) := by
      rw [Memory.read, hfile]
      rfl
    obtain ⟨verdict, hverdict⟩ := h.exists_verdict (congrArg Prod.fst hread)
    refine ⟨_, _, congrArg some hread, h.placed, Or.inr ⟨_, rfl, _, verdict, rfl, hverdict, ?_⟩⟩
    rintro k hk hnonneg
    obtain rfl := Value.int.inj hk
    rw [bytesBefore, if_neg (Int.not_lt.mpr hnonneg), List.length_take]
    omega

theorem delete (h : m.Suits plan) (hp : plan.HasFile p) : m.Behaves plan (.delete p) := by
  rcases h.placed.nothing_or_file hp with hnone | ⟨e, he, hfile⟩
  · apply h.behaves_of_none
    exact congrArg some (by rw [Memory.delete, if_pos (by simp [contains_eq_false hnone])])
  · obtain ⟨names, hnames, rfl⟩ := hp
    have hproper := plan.proper names (Or.inl hnames)
    obtain ⟨m', hdelete, hm'⟩ := h.orderly.2.delete h.orderly.1 hproper (contains_iff.mpr ⟨e, he⟩)
    refine ⟨_, m', congrArg some hdelete, ?_, Or.inr ⟨_, rfl, trivial⟩⟩
    intro b hb d hd
    rw [hm'.get?_of_file h.orderly.2 hproper he (file_eq_ok_iff.mp hfile).2 hb] at hd
    split at hd
    · cases hd
    · exact h.placed b hb d hd

theorem rename (h : m.Suits plan) {source target : Path} (hsource : plan.HasFile source)
    (htarget : plan.HasFile target) : m.Behaves plan (.rename source target) := by
  rcases h.placed.nothing_or_file hsource with hnone | ⟨e, he, hfile⟩
  · apply h.behaves_of_none
    change m.rename source target = _
    rw [Memory.rename, contains_eq_false hnone]
    rfl
  · have hstored : m.contains source := contains_iff.mpr ⟨e, he⟩
    by_cases htaken : m.contains target
    · refine ⟨.ok .no, m, ?_, h.placed, Or.inr ⟨_, rfl, trivial⟩⟩
      change m.rename source target = _
      rw [Memory.rename, hstored, htaken]
      rfl
    · obtain ⟨a, ha, rfl⟩ := hsource
      obtain ⟨names, hnames, rfl⟩ := htarget
      obtain ⟨ns, name, rfl, hproper, hns⟩ := Plan.exists_append_of_mem_files hnames
      have haproper := plan.proper a (Or.inl ha)
      have hbelow : ¬ a <+: ns ++ [name] := by
        apply Plan.not_isPrefix_of_mem_files ha hnames
        rintro rfl
        exact htaken hstored
      obtain ⟨grown, m', hgrown, hrename, hm'⟩ := h.orderly.2.rename h.orderly.1 haproper hstored
        hproper htaken hbelow (h.placed.isOpen hns)
      refine ⟨.ok .yes, m', hrename, ?_, Or.inr ⟨_, rfl, trivial⟩⟩
      have hisFile := (file_eq_ok_iff.mp hfile).2
      intro b hb d hd
      rw [hm'.get?_of_file h.orderly.2 hgrown haproper hproper he hisFile
        (not_contains_iff.mp htaken) hbelow hb] at hd
      split at hd
      · rename_i heq
        rw [heq, ← Option.some.inj hd]
        exact Entry.fitsAt_of_file hisFile hnames
      · split at hd
        · cases hd
        · exact h.placed.grown hns hgrown b hb d hd

theorem listdir (h : m.Suits plan) (hp : plan.HasDirectory p) : m.Behaves plan (.listdir p) := by
  obtain ⟨a, ha, rfl⟩ := hp
  have hproper := plan.proper a (Or.inr ha)
  cases he : m.get? (ofNames a) with
  | none =>
      apply h.behaves_of_none
      exact congrArg some (by rw [Memory.listdir, if_neg (by simp [he])])
  | some e =>
      have hlist : m.listdir (ofNames a) = (.ok (.value (.list ((m.namesBelow (ofNames a)).map
          fun name => .text (toText name)))), m) := by
        rw [Memory.listdir, if_pos (by simp [he, h.placed.isDirectory ha he])]
      refine ⟨_, m, congrArg some hlist, h.placed,
        Or.inr ⟨_, rfl, a, _, rfl, hproper, rfl, ?_, ?_⟩⟩
      · apply (namesBelow_ascending h.orderly.1 _).imp
        rintro n n' hlt rfl
        exact Std.Irrefl.irrefl n hlt
      · intro name hname
        obtain ⟨hisProper, hcontains⟩ :=
          (h.orderly.2.mem_namesBelow_iff h.orderly.1 hproper).mp hname
        obtain ⟨d, hd⟩ := contains_iff.mp hcontains
        have hfits := h.placed _ (allProper_append_singleton.mpr ⟨hproper, hisProper⟩) d hd
        rw [Entry.FitsAt] at hfits
        split at hfits
        · exact Or.inr hfits
        · exact Or.inl hfits

theorem behaves (h : m.Suits plan) {request : Request} (hr : plan.Allows request) :
    m.Behaves plan request := by
  cases request with
  | create path data replication blockSize => exact h.create hr.1 data replication blockSize
  | append path data => exact h.append hr.1 data
  | read path length =>
      obtain ⟨hp, n, rfl⟩ := hr
      exact h.read hp n
  | delete path => exact h.delete hr
  | rename source target => exact h.rename hr.1 hr.2
  | setReplication path factor => exact h.setReplication hr factor
  | getReplication path => exact h.getReplication hr
  | listdir path => exact h.listdir hr
  | mkdirs path => exact h.mkdirs hr
  | isStored path => exact hr.elim

/-- A call that keeps to the plan ends, is answered as expected, and leaves the service as
planned. -/
theorem exists_answer (h : m.Suits plan) {request : Request} (hr : plan.Allows request) :
    ∃ answer m', Storage.answer request m = some (answer, m') ∧ m'.Suits plan ∧
      plan.Expects request answer := by
  obtain ⟨answer, m', hanswer, hplaced, hexpected⟩ := h.behaves hr
  obtain ⟨answer', m'', hanswer', horderly⟩ := h.orderly.exists_answer hr.respectsTree
  obtain ⟨rfl, rfl⟩ := Prod.mk.inj (Option.some.inj (hanswer.symm.trans hanswer'))
  exact ⟨answer, m', hanswer, ⟨horderly, h.drawn.answer (fun _ => hr.isDrawn) hanswer, hplaced⟩,
    hexpected⟩

theorem exists_serve (h : m.Suits plan) {requests : List Request}
    (hr : ∀ request ∈ requests, plan.Allows request) :
    ∃ answers m', Storage.serve requests m = some (answers, m') ∧ m'.Suits plan := by
  refine Storage.exists_serve (Suits plan) plan.Allows ?_ hr h
  intro request m hm hrequest
  obtain ⟨answer, m', hanswer, hm', -⟩ := hm.exists_answer hrequest
  exact ⟨answer, m', hanswer, hm'⟩

end Suits

end Memory

end StorageLoad
