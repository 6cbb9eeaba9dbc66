import StorageLoad.Job
import StorageLoad.Proofs.Options

/-!
The tasks of a job and their seeds.  Every worker has the configuration of its job, but for the
seed (`configure_tasks`).  Since the sign of a seed plays no part in the key of a generator, two
workers can have the same key if the seed of the job is below zero, and only then
(`keys_eq_iff_opposite`).
-/

namespace StorageLoad

namespace Value

theorem sameKey_text_iff {k : Value} {name : String} : sameKey k (text name) ↔ k = text name := by
  cases k <;> simp [sameKey, whole?]

theorem lookup_putEntry (name other : String) (v : Value) (entries : List (Value × Value)) :
    lookup other (putEntry (text name) v entries) =
      if other = name then some v else lookup other entries := by
  induction entries with
  | nil => simp [putEntry, lookup, sameKey, eq_comm]
  | cons entry entries ih =>
      obtain ⟨k, w⟩ := entry
      rw [putEntry]
      split
      · rename_i hkey
        obtain rfl := sameKey_text_iff.mp hkey
        simp only [lookup, sameKey, decide_eq_true_eq]
        split
        · rename_i heq
          rw [if_pos heq.symm]
        · rename_i hne
          rw [if_neg (Ne.symm hne)]
      · rename_i hkey
        rw [lookup, ih, lookup]
        split
        · rename_i hother
          have hne : other ≠ name := by
            rintro rfl
            exact hkey hother
          rw [if_neg hne]
        · rfl

theorem map_fst_putEntry {name : String} {v : Value} {entries : List (Value × Value)}
    (h : (lookup name entries).isSome) :
    (putEntry (text name) v entries).map Prod.fst = entries.map Prod.fst := by
  induction entries with
  | nil => cases h
  | cons entry entries ih =>
      obtain ⟨k, w⟩ := entry
      rw [putEntry]
      split
      · rfl
      · rename_i hkey
        rw [lookup, if_neg hkey] at h
        rw [List.map_cons, List.map_cons, ih h]

end Value

namespace Options

open Outcome

variable {options : Options} {c : Settings Float} {name other : String} {v : Value}

theorem unknown_putEntry (h : (Value.lookup name options).isSome) (names : List String) :
    unknown names (Value.putEntry (.text name) v options) = unknown names options := by
  rw [unknown, unknown, Value.map_fst_putEntry h]

theorem get?_putEntry_of_ne (h : other ≠ name) :
    get? (Value.putEntry (.text name) v options) other = options.get? other := by
  rw [get?, get?, Value.lookup_putEntry, if_neg h]

theorem getD_putEntry_of_ne (h : other ≠ name) (default : Value) :
    getD (Value.putEntry (.text name) v options) other default = options.getD other default := by
  rw [getD, get?_putEntry_of_ne h, getD]

theorem readIf_putEntry_of_ne {α : Type} (h : other ≠ name) (read : Value → Outcome α) :
    readIf (Value.putEntry (.text name) v options) other read = options.readIf other read := by
  rw [readIf, get?_putEntry_of_ne h, readIf]

theorem durationMs_putEntry (h : "duration" ≠ name) :
    durationMs (Value.putEntry (.text name) v options) = options.durationMs := by
  rw [durationMs, getD_putEntry_of_ne h, durationMs]

theorem operations_putEntry (h : "operations" ≠ name) (totalOps : Option Int) :
    operations (Value.putEntry (.text name) v options) totalOps =
      options.operations totalOps := by
  rw [operations, getD_putEntry_of_ne h, operations]

theorem isSome_lookup_of_readIf {α : Type} {read : Value → Outcome α} {a : α}
    (h : options.readIf name read = .ok (some a)) : (Value.lookup name options).isSome := by
  cases hlookup : Value.lookup name options with
  | some v => rfl
  | none =>
      rw [readIf, get?, hlookup] at h
      cases h

theorem readIf_putSeed {n : Int} (hn : -2 ^ 63 ≤ n) :
    readIf (Value.putEntry (.text "seed") (.int n) options) "seed" (Config.int "seed" (-2 ^ 63)) =
      .ok (some n) := by
  have hread : Config.int "seed" (-2 ^ 63) (.int n) = .ok n := by
    simp only [Config.int, Value.toInt, if_neg (Int.not_lt.mpr hn)]
    rfl
  rw [readIf, get?, Value.lookup_putEntry, if_pos rfl]
  change (do return some (← Config.int "seed" (-2 ^ 63) (.int n)) : Outcome (Option Int)) = _
  rw [hread]
  rfl

theorem settings_putSeed {seed n : Int} (h : options.settings = .ok c)
    (hseed : c.seed = some seed) (hn : -2 ^ 63 ≤ n) :
    settings (Value.putEntry (.text "seed") (.int n) options) =
      .ok { c with seed := some n } := by
  have hread := isReadAs_of_settings h
  have hgiven := hread.seed
  rw [hseed] at hgiven
  apply IsReadAs.settings_eq
  constructor
  case names =>
    rw [unknown_putEntry (isSome_lookup_of_readIf hgiven)]
    exact hread.names
  case seed => exact readIf_putSeed hn
  all_goals
    simp (disch := decide) only [readIf_putEntry_of_ne, getD_putEntry_of_ne, durationMs_putEntry,
      operations_putEntry]
  · exact hread.durationMs
  · exact hread.pause
  · exact hread.exitOnError
  · exact hread.totalOps
  · exact hread.operations
  · exact hread.baseDir
  · exact hread.fileCount
  · exact hread.dirSize
  · exact hread.blockSize
  · exact hread.writeSize
  · exact hread.appendSize
  · exact hread.readSize
  · exact hread.replication
  · exact hread.pollMs
  · exact hread.timeoutMs
  · exact hread.workers
  · exact hread.resultFile

end Options

namespace Twister

/-- The words that key the generator for a seed. -/
def key (seed : Int) : List UInt32 :=
  keyWords seed.natAbs

/-- The generator that starts from a key. -/
def ofKey (key : List UInt32) : Twister :=
  { state := mixKey key.toArray (spread 19650218), used := size }

theorem joinWords_keyWords (n : Nat) : RandomSource.joinWords (keyWords n) = n := by
  fun_induction keyWords n with
  | case1 n h =>
      rw [RandomSource.joinWords, RandomSource.joinWords, UInt32.toNat_ofNat']
      omega
  | case2 n h ih =>
      rw [RandomSource.joinWords, ih, UInt32.toNat_ofNat']
      omega

theorem key_eq_iff {m n : Int} : key m = key n ↔ m = n ∨ m = -n := by
  rw [← Int.natAbs_eq_natAbs_iff]
  constructor
  · intro h
    rw [← joinWords_keyWords m.natAbs, ← joinWords_keyWords n.natAbs]
    exact congrArg _ h
  · exact congrArg keyWords

end Twister

namespace Job

variable {options : Options} {job : Job}

theorem settings_of_ofOptions (h : ofOptions options = .ok job) :
    job.options = options ∧ options.settings = .ok job.settings := by
  obtain ⟨c, hc, h⟩ := Outcome.exists_of_bind h
  obtain rfl := Except.ok.inj h
  exact ⟨rfl, hc⟩

/-- The configuration of a worker is that of the job, but for the seed. -/
theorem settings_task (h : ofOptions options = .ok job) (index : Nat) :
    (job.task index).settings =
      .ok { job.settings with seed := job.settings.seed.map (· + (index : Int)) } := by
  obtain ⟨rfl, hc⟩ := settings_of_ofOptions h
  rw [task]
  cases hseed : job.settings.seed with
  | none =>
      rw [hc, Option.map_none, ← hseed]
  | some seed =>
      have hlow : -2 ^ 63 ≤ seed := (Options.isValid_of_settings hc).seed seed hseed
      exact Options.settings_putSeed hc hseed (by omega)

theorem lookup_task (h : ofOptions options = .ok job) (index : Nat) :
    (job.task index).map Prod.fst = options.map Prod.fst ∧
      ∀ name, name ≠ "seed" → Value.lookup name (job.task index) = Value.lookup name options := by
  obtain ⟨rfl, hc⟩ := settings_of_ofOptions h
  rw [task]
  cases hseed : job.settings.seed with
  | none => exact ⟨rfl, fun _ _ => rfl⟩
  | some seed =>
      have hgiven := (Options.isReadAs_of_settings hc).seed
      rw [hseed] at hgiven
      refine ⟨Value.map_fst_putEntry (Options.isSome_lookup_of_readIf hgiven),
        fun name hname => ?_⟩
      rw [Value.lookup_putEntry, if_neg hname]

theorem getElem?_tasks {index : Nat} (h : (index : Int) < job.settings.workers) :
    job.tasks[index]? = some (index, job.task index) := by
  have hlt : index < job.settings.workers.toNat := by omega
  rw [tasks, List.getElem?_map, List.getElem?_range hlt]
  rfl

theorem mem_tasks {index : Nat} (h : (index : Int) < job.settings.workers) :
    (index, job.task index) ∈ job.tasks :=
  List.mem_of_getElem? (getElem?_tasks h)

/-- Every worker has a task, and no one else has.  What it reads of its own options is the
configuration of the job, but that its number is added to the seed, if there is one.  The options
of the job stay as they are: the worker has its own under the same names, and none is another but
the seed. -/
theorem configure_tasks (h : ofOptions options = .ok job) :
    job.options = options ∧ options.settings = .ok job.settings ∧
      (job.tasks.length : Int) = job.settings.workers ∧
      ∀ index : Nat, (index : Int) < job.settings.workers → ∃ own c,
        job.tasks[index]? = some (index, own) ∧ (Worker.configure own).1 = .ok c ∧
        c = { job.settings with seed := job.settings.seed.map (· + (index : Int)) } ∧
        own.map Prod.fst = options.map Prod.fst ∧
        ∀ name, name ≠ "seed" → Value.lookup name own = Value.lookup name options := by
  obtain ⟨hoptions, hc⟩ := settings_of_ofOptions h
  have hworkers : 1 ≤ job.settings.workers := (Options.isValid_of_settings hc).workers
  refine ⟨hoptions, hc, ?_, fun index hindex => ?_⟩
  · rw [tasks, List.length_map, List.length_range]
    omega
  · have hown := settings_task h index
    obtain ⟨hnames, hothers⟩ := lookup_task h index
    refine ⟨job.task index, _, getElem?_tasks hindex, ?_, rfl, hnames, hothers⟩
    rw [Worker.configure, hown]

/-- Three workers, with a text for the seed, and operations of which some are told in full. -/
def varying : Options :=
  [(.text "workers", .text "3"), (.text "seed", .text " 41 "), (.text "duration", .real 0.5),
    (.text "operations", .map [(.text "Read", .map [(.text "percent", .real 62.5),
      (.text "curve", .list [.list [.int 0, .int 1], .list [.int 1, .real 0.5]]),
      (.text "max_count", .text "7")]), (.text "delete", .null)])]

/-- The last of them has the seed 43. -/
theorem configure_tasks_varying : ∃ job own c, ofOptions varying = .ok job ∧
    job.settings.seed = some 41 ∧
    job.tasks[2]? = some (2, own) ∧ (Worker.configure own).1 = .ok c ∧
    c = { job.settings with seed := some 43 } ∧
    c.operations.map Spec.maxCount = [some 7, none] := by
  have hread :
      (ofOptions varying).toOption.map (fun job => (job.settings.seed, job.settings.workers,
      job.settings.operations.map Spec.maxCount)) = some (some 41, 3, [some 7, none]) := by
    decide +kernel
  obtain ⟨job, hjob, hfacts⟩ := Option.map_eq_some_iff.mp hread
  simp only [Prod.mk.injEq] at hfacts
  obtain ⟨hseed, hworkers, hlimits⟩ := hfacts
  replace hjob := Outcome.eq_ok_of_toOption hjob
  obtain ⟨-, -, -, htasks⟩ := configure_tasks hjob
  obtain ⟨own, c, hown, hc, heq, -, -⟩ := htasks 2 (by rw [hworkers]; decide)
  rw [hseed] at heq
  refine ⟨job, own, c, hjob, hseed, hown, hc, heq, ?_⟩
  rw [heq]
  exact hlimits

theorem eq_task_of_mem {index : Nat} {own : Options} (h : (index, own) ∈ job.tasks) :
    own = job.task index := by
  obtain ⟨i, -, heq⟩ := List.mem_map.mp h
  obtain ⟨rfl, rfl⟩ := Prod.mk.inj heq
  rfl

theorem exists_of_mem_tasks {seed : Int} (h : ofOptions options = .ok job)
    (hseed : job.settings.seed = some seed) {index : Nat} {own : Options}
    (hmem : (index, own) ∈ job.tasks) :
    ∃ c, (Worker.configure own).1 = .ok c ∧
      ∀ otherwise, Worker.random c otherwise = Twister.ofKey (Twister.key (seed + index)) := by
  have hown := settings_task h index
  rw [hseed] at hown
  rw [eq_task_of_mem hmem, Worker.configure, hown]
  exact ⟨_, rfl, fun _ => rfl⟩

/-- Two workers of a job with a seed have different keys, unless the seed of one is that of the
other with the other sign; so they always have if the seed of the job is not below zero. -/
theorem keys_eq_iff_opposite {seed : Int} (h : ofOptions options = .ok job)
    (hseed : job.settings.seed = some seed) {i j : Nat} {first second : Options}
    (hi : (i, first) ∈ job.tasks) (hj : (j, second) ∈ job.tasks) (hne : i ≠ j) (otherwise : Int) :
    ∃ c d, (Worker.configure first).1 = .ok c ∧ (Worker.configure second).1 = .ok d ∧
      Worker.random c otherwise = Twister.ofKey (Twister.key (seed + i)) ∧
      Worker.random d otherwise = Twister.ofKey (Twister.key (seed + j)) ∧
      (Twister.key (seed + i) = Twister.key (seed + j) ↔ seed + i = -(seed + j)) ∧
      (0 ≤ seed → Twister.key (seed + i) ≠ Twister.key (seed + j)) := by
  obtain ⟨c, hc, hfirst⟩ := exists_of_mem_tasks h hseed hi
  obtain ⟨d, hd, hsecond⟩ := exists_of_mem_tasks h hseed hj
  have hkeys : Twister.key (seed + i) = Twister.key (seed + j) ↔ seed + i = -(seed + j) := by
    rw [Twister.key_eq_iff]
    omega
  refine ⟨c, d, hc, hd, hfirst otherwise, hsecond otherwise, hkeys, ?_⟩
  intro hnonneg
  rw [Ne, hkeys]
  omega

/-- Three workers, the first of which has the seed -1 and the last the seed 1. -/
def opposed : Options :=
  [(.text "seed", .int (-1)), (.text "workers", .int 3)]

theorem exists_opposed : ∃ job, ofOptions opposed = .ok job ∧ job.settings.seed = some (-1) ∧
    job.settings.workers = 3 := by
  have hread :
      (ofOptions opposed).toOption.map (fun job => (job.settings.seed, job.settings.workers)) =
      some (some (-1), 3) := by
    decide +kernel
  obtain ⟨job, hjob, hfacts⟩ := Option.map_eq_some_iff.mp hread
  obtain ⟨hseed, hworkers⟩ := Prod.mk.inj hfacts
  exact ⟨job, Outcome.eq_ok_of_toOption hjob, hseed, hworkers⟩

/-- The first two of them have different keys. -/
theorem keys_differ_opposed : ∃ job c d, ofOptions opposed = .ok job ∧
    job.settings.seed = some (-1) ∧ (0, job.task 0) ∈ job.tasks ∧ (1, job.task 1) ∈ job.tasks ∧
    (Worker.configure (job.task 0)).1 = .ok c ∧ (Worker.configure (job.task 1)).1 = .ok d ∧
    Twister.key (-1) ≠ Twister.key 0 := by
  obtain ⟨job, hjob, hseed, hworkers⟩ := exists_opposed
  have hfirst : (0, job.task 0) ∈ job.tasks := mem_tasks (by omega)
  have hsecond : (1, job.task 1) ∈ job.tasks := mem_tasks (by omega)
  obtain ⟨c, d, hc, hd, -, -, hkeys, -⟩ :=
    keys_eq_iff_opposite hjob hseed hfirst hsecond (by decide) 0
  exact ⟨job, c, d, hjob, hseed, hfirst, hsecond, hc, hd, fun h =>
    absurd (hkeys.mp h) (by decide)⟩

/-- The first and the last of them draw the same random numbers. -/
theorem random_eq_opposed : ∃ job c d, ofOptions opposed = .ok job ∧
    job.settings.seed = some (-1) ∧ (0, job.task 0) ∈ job.tasks ∧ (2, job.task 2) ∈ job.tasks ∧
    (Worker.configure (job.task 0)).1 = .ok c ∧ (Worker.configure (job.task 2)).1 = .ok d ∧
    Twister.key (-1 + (0 : Nat)) = Twister.key (-1 + (2 : Nat)) ∧
    ∀ otherwise, Worker.random c otherwise = Worker.random d otherwise := by
  obtain ⟨job, hjob, hseed, hworkers⟩ := exists_opposed
  have hfirst : (0, job.task 0) ∈ job.tasks := mem_tasks (by omega)
  have hlast : (2, job.task 2) ∈ job.tasks := mem_tasks (by omega)
  obtain ⟨c, hc, hrandom⟩ := exists_of_mem_tasks hjob hseed hfirst
  obtain ⟨d, hd, hrandom'⟩ := exists_of_mem_tasks hjob hseed hlast
  have hkeys : Twister.key (-1 + (0 : Nat)) = Twister.key (-1 + (2 : Nat)) :=
    Twister.key_eq_iff.mpr (Or.inr rfl)
  refine ⟨job, c, d, hjob, hseed, hfirst, hlast, hc, hd, hkeys, fun otherwise => ?_⟩
  rw [hrandom, hrandom', hkeys]

end Job
end StorageLoad
