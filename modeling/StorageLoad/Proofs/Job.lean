import Mathlib.Data.List.Forall2
import Mathlib.Data.List.Induction
import StorageLoad.Proofs.Attempt

/-!
The result of a job.  Workers only emit counts, and counts go out and are read back as they are,
so the merged statistics are the sums over all workers, and in whatever order the workers are
done, the job comes to the same (`merge_of_runs`).
-/

namespace StorageLoad

open Record

/-- A run of a worker that has ended, with any settings and any way to select operations, in any
surroundings. -/
structure Worker.Run where
  {σ ρ τ 𝕜 : Type}
  [source : RandomSource ρ]
  [surroundings : Surroundings σ]
  policy : Policy τ ρ
  limit : Nat
  settings : Settings 𝕜
  key : String
  value : String
  world : σ
  random : ρ
  account : Account σ
  account_eq : accountWith policy limit settings key value world random = some account

attribute [instance] Worker.Run.source Worker.Run.surroundings

namespace Worker.Run

/-- What the run emitted. -/
def records (run : Run) : List Record :=
  run.account.records

/-- The number of operations that were selected. -/
def operations (run : Run) : Nat :=
  run.account.turns.countP Turn.isChoice

/-- The key of the number of operations. -/
def operationsKey : String :=
  keyOf .long opType Measurement.opCount

variable (run : Run)

theorem isCount : ∀ r ∈ run.records, r.IsCount :=
  isCount_of_run run.account_eq

theorem sumOf_operationsKey : sumOf operationsKey run.records = run.operations := by
  have hstar : '*' ∉ opType.toList := by decide
  rw [operationsKey, ← total_eq_sumOf run.isCount hstar]
  exact total_opCount_eq_countP run.account_eq

theorem operationsKey_mem : operationsKey ∈ run.records.map Record.key := by
  obtain ⟨-, ms, hrecords⟩ := isRounds_of_run run.account_eq
  refine List.mem_map.mpr ⟨.long opType Measurement.opCount run.operations, ?_, rfl⟩
  rw [records, hrecords]
  exact List.mem_append_right _ List.mem_cons_self

end Worker.Run

namespace Job

open Worker (Run)

/-- Whether a result is what a run leaves: how it ended, and what it emitted, as keys and
texts. -/
structure Result.IsOf (r : Result) (run : Run) : Prop where
  ending : r.ending = run.account.ending
  pairs : Job.pairs run.records = .ok r.pairs

/-- The pairs of a result as they are merged. -/
def Result.values (r : Result) : List (String × Value) :=
  r.pairs.map fun (key, text) => (key, .text text)

variable {results : List Result} {runs : List Run}

theorem merge_eq (results : List Result) :
    merge results =
      match Reducer.empty.addAll (results.flatMap Result.values) with
      | (.ok (), m) => .ok m
      | (.error fault, _) => .error fault := by
  rw [merge]
  generalize Reducer.empty = m
  induction results generalizing m with
  | nil => rfl
  | cons r results ih =>
      have hvalues : m.addAll (r.pairs.map fun (key, text) => (key, .text text)) =
          m.addAll r.values := rfl
      rw [List.foldlM_cons, List.flatMap_cons, Reducer.addAll_append, hvalues]
      rcases m.addAll r.values with ⟨fault | ⟨⟩, m'⟩
      · rfl
      · exact ih m'

theorem reads_values (h : List.Forall₂ Result.IsOf results runs) :
    List.Forall₂ Reducer.Reads (results.flatMap Result.values) (runs.flatMap Run.records) := by
  induction h with
  | nil => exact .nil
  | cons hr hresults ih =>
      rename_i r run results runs
      rw [List.flatMap_cons, List.flatMap_cons]
      exact List.rel_append (Reducer.reads_of_pairs run.isCount hr.pairs) ih

theorem isCount_of_mem : ∀ s ∈ runs.flatMap Run.records, s.IsCount := by
  intro s hs
  obtain ⟨run, -, hs⟩ := List.mem_flatMap.mp hs
  exact run.isCount s hs

theorem exists_merge (h : List.Forall₂ Result.IsOf results runs) :
    ∃ merged, merge results = .ok merged ∧ merged.IsMergeOf (runs.flatMap Run.records) := by
  obtain ⟨m, haddAll, hm⟩ := Reducer.isMergeOf_empty.exists_addAll (reads_values h)
  refine ⟨m, ?_, hm⟩
  rw [merge_eq, haddAll]

theorem exists_merge_perm (h : List.Forall₂ Result.IsOf results runs) :
    ∃ merged, (∀ order : List Result, order.Perm results → merge order = .ok merged) ∧
      merged.IsMergeOf (runs.flatMap Run.records) := by
  obtain ⟨merged, -, hmerged⟩ := exists_merge h
  refine ⟨merged, ?_, hmerged⟩
  intro order horder
  -- In the order of the results, the runs emitted a permutation of the same counts.
  obtain ⟨runs', hruns', hperm⟩ := List.perm_comp_forall₂ horder h
  obtain ⟨merged', hmerge, hmerged'⟩ := exists_merge hruns'
  rw [hmerge, hmerged'.eq_of_perm hmerged (hperm.flatMap_right _) isCount_of_mem]

theorem sumOf_flatMap (key : String) (runs : List Run) :
    sumOf key (runs.flatMap Run.records) = (runs.map fun run => sumOf key run.records).sum := by
  induction runs with
  | nil => rfl
  | cons run runs ih => rw [List.flatMap_cons, sumOf_append, ih, List.map_cons, List.sum_cons]

theorem endings_append_singleton (results : List Result) (r : Result) :
    endings (results ++ [r]) = (endings results).insert r.index r.ending := by
  rw [endings, List.foldl_append]
  rfl

theorem get?_endings (h : (results.map Result.index).Nodup) (index : Nat) (ending : Ending) :
    (endings results).get? index = some ending ↔
      ∃ r ∈ results, r.index = index ∧ r.ending = ending := by
  -- From the right, as the last result is put in last.
  induction results using List.reverseRecOn with
  | nil => simp [endings, Table.empty, Table.get?]
  | append_singleton results r ih =>
      rw [List.map_append, List.map_singleton, List.nodup_append] at h
      obtain ⟨hnodup, -, hnew⟩ := h
      have hother : ∀ s ∈ results, s.index ≠ r.index := by
        intro s hs
        exact hnew s.index (List.mem_map_of_mem hs) r.index List.mem_cons_self
      rw [endings_append_singleton, Table.get?_insert]
      split
      · rename_i heq
        subst heq
        constructor
        · intro hending
          exact ⟨r, List.mem_append_right _ List.mem_cons_self, rfl, Option.some.inj hending⟩
        · rintro ⟨s, hs, hindex, rfl⟩
          rcases List.mem_append.mp hs with hs | hs
          · exact absurd hindex (hother s hs)
          · rw [List.mem_singleton.mp hs]
      · rename_i hne
        rw [ih hnodup]
        constructor
        · rintro ⟨s, hs, hsame⟩
          exact ⟨s, List.mem_append_left _ hs, hsame⟩
        · rintro ⟨s, hs, rfl, hending⟩
          rcases List.mem_append.mp hs with hs | hs
          · exact ⟨s, hs, rfl, hending⟩
          · rw [List.mem_singleton.mp hs] at hne
            exact absurd rfl hne

section Tasks

variable {σ : Type} [Surroundings σ] {limit : Nat} {otherwise : Int} {world world' : σ}

theorem exists_run_of_runTask {index : Nat} {options : Options} {r : Result}
    (h : runTask limit otherwise index options world = some (.ok (r, world'))) :
    r.index = index ∧ ∃ run, r.IsOf run := by
  rw [runTask] at h
  split at h
  · cases h
  · rename_i c configured hconfigure
    obtain ⟨account, haccount, h⟩ := Option.map_eq_some_iff.mp h
    obtain ⟨lines, -, h⟩ := Outcome.exists_of_bind h
    obtain ⟨pairs, hpairs, h⟩ := Outcome.exists_of_bind h
    obtain ⟨rfl, -⟩ := Prod.mk.inj (Except.ok.inj h)
    exact ⟨rfl, ⟨_, _, _, _, _, world, _, account, haccount⟩, rfl, hpairs⟩

theorem exists_runs_of_runTasks {enter : σ → Outcome σ} {tasks : List (Nat × Options)}
    {results : List Result}
    (h : runTasks limit otherwise enter tasks world = some (.ok (results, world'))) :
    results.map Result.index = tasks.map Prod.fst ∧
    ∃ runs, List.Forall₂ Result.IsOf results runs := by
  induction tasks generalizing world results with
  | nil =>
      obtain ⟨rfl, -⟩ := Prod.mk.inj (Except.ok.inj (Option.some.inj h))
      exact ⟨rfl, [], .nil⟩
  | cons task tasks ih =>
      obtain ⟨index, options⟩ := task
      rw [runTasks] at h
      split at h
      · cases h
      · split at h
        · cases h
        · cases h
        · rename_i r world₁ hrun
          obtain ⟨rest, hrest, h⟩ := Option.map_eq_some_iff.mp h
          obtain ⟨⟨results, world₂⟩, rfl, h⟩ := Outcome.exists_of_bind h
          obtain ⟨rfl, rfl⟩ := Prod.mk.inj (Except.ok.inj h)
          obtain ⟨hindex, run, hr⟩ := exists_run_of_runTask hrun
          obtain ⟨hindices, runs, hruns⟩ := ih hrest
          rw [List.map_cons, List.map_cons, hindex, hindices]
          exact ⟨rfl, run :: runs, .cons hr hruns⟩

/-- The workers of a job leave what runs leave, and have different numbers. -/
theorem exists_runs_of_job {enter : σ → Outcome σ} {job : Job} {results : List Result}
    (h : runTasks limit otherwise enter job.tasks world = some (.ok (results, world'))) :
    (results.map Result.index).Nodup ∧ ∃ runs, List.Forall₂ Result.IsOf results runs := by
  obtain ⟨hindices, hruns⟩ := exists_runs_of_runTasks h
  have hnumbers : job.tasks.map Prod.fst = List.range job.settings.workers.toNat := by
    rw [tasks, List.map_map]
    exact List.map_id _
  rw [hindices, hnumbers]
  exact ⟨List.nodup_range, hruns⟩

end Tasks

/-- In whatever order the workers are done, a job comes to the same.  The results can be merged,
every key that a worker emitted is left once, with the sum over all workers of what they emitted
under it, so that the number of operations is that of all workers, and each worker ended as is
told under its number. -/
theorem merge_of_runs (h : List.Forall₂ Result.IsOf results runs) :
    (∃ merged, (∀ order : List Result, order.Perm results → merge order = .ok merged) ∧
      (merged.outputs.map Record.key).Pairwise (fun k l => Text.codes k < Text.codes l) ∧
      (∀ key, key ∈ merged.outputs.map Record.key ↔
        ∃ run ∈ runs, key ∈ run.records.map Record.key) ∧
      (∀ r ∈ merged.outputs, r.figure = .long (runs.map fun run => sumOf r.key run.records).sum) ∧
      (runs ≠ [] →
        .long Worker.opType Measurement.opCount (runs.map fun run => (run.operations : Int)).sum ∈
        merged.outputs)) ∧
      ((results.map Result.index).Nodup → ∀ order : List Result, order.Perm results →
        ∀ index ending, (endings order).get? index = some ending ↔
          ∃ r ∈ results, r.index = index ∧ r.ending = ending) := by
  constructor
  · obtain ⟨merged, hmerge, hmerged⟩ := exists_merge_perm h
    have hkeys : ∀ key, key ∈ merged.outputs.map Record.key ↔
        ∃ run ∈ runs, key ∈ run.records.map Record.key := by
      intro key
      rw [hmerged.mem_keys_iff, List.map_flatMap, List.mem_flatMap]
    have hfigures : ∀ r ∈ merged.outputs, r.IsCount ∧
        r.figure = .long (runs.map fun run => sumOf r.key run.records).sum := by
      intro r hr
      rw [← sumOf_flatMap]
      exact hmerged.isCount isCount_of_mem (hmerged.mem_outputs_iff.mp hr)
    refine ⟨merged, hmerge, hmerged.ascending, hkeys, fun r hr => (hfigures r hr).2, ?_⟩
    intro hne
    obtain ⟨run, hrun⟩ := List.exists_mem_of_ne_nil runs hne
    obtain ⟨r, hr, hkey⟩ :=
      List.mem_map.mp ((hkeys Run.operationsKey).mpr ⟨run, hrun, run.operationsKey_mem⟩)
    obtain ⟨hcount, hfigure⟩ := hfigures r hr
    have hstar : '*' ∉ Worker.opType.toList := by decide
    obtain ⟨hopType, hmeasurement⟩ := (hcount.key_eq_iff hstar).mp hkey
    simp only [hkey, Run.sumOf_operationsKey] at hfigure
    rw [long, ← hopType, ← hmeasurement, ← hfigure]
    exact hr
  · intro hnodup order horder index ending
    rw [get?_endings ((horder.map _).nodup_iff.mpr hnodup)]
    simp only [horder.mem_iff]

/-- Two workers with three operations each, the second of which is done first. -/
theorem merge_of_runs_pair :
    ∃ a pairs merged, Worker.account 5 Worker.busy "k" "v" (⟨0⟩ : Worker.Obliging) (⟨⟩ : Zeros) =
      some a ∧ Job.pairs a.records = .ok pairs ∧
      merge [⟨1, a.ending, pairs, []⟩, ⟨0, a.ending, pairs, []⟩] = .ok merged ∧
      .long Worker.opType Measurement.opCount 6 ∈ merged.outputs ∧
      (endings [⟨1, a.ending, pairs, []⟩, ⟨0, a.ending, pairs, []⟩]).get? 0 =
        some .exhausted := by
  have hrun :
      (Worker.account 5 Worker.busy "k" "v" (⟨0⟩ : Worker.Obliging) (⟨⟩ : Zeros)).bind (fun a =>
      (Job.pairs a.records).toOption.map fun _ => (a.ending, a.turns.countP Turn.isChoice)) =
        some (.exhausted, 3) := by
    decide +kernel
  obtain ⟨a, ha, hrun⟩ := Option.bind_eq_some_iff.mp hrun
  obtain ⟨pairs, hpairs, hfacts⟩ := Option.map_eq_some_iff.mp hrun
  obtain ⟨hending, hchoices⟩ := Prod.mk.inj hfacts
  replace hpairs := Outcome.eq_ok_of_toOption hpairs
  let run : Run := ⟨_, _, _, _, _, _, _, a, ha⟩
  have hoperations : run.operations = 3 := hchoices
  have hresults : List.Forall₂ Result.IsOf [⟨0, a.ending, pairs, []⟩, ⟨1, a.ending, pairs, []⟩]
      [run, run] :=
    .cons ⟨rfl, hpairs⟩ (.cons ⟨rfl, hpairs⟩ .nil)
  obtain ⟨⟨merged, hmerge, -, -, -, hsum⟩, hendings⟩ := merge_of_runs hresults
  refine ⟨a, pairs, merged, ha, hpairs, hmerge _ (.swap ..), ?_, ?_⟩
  · simpa [hoperations] using hsum (by simp)
  · rw [hendings (by simp) _ (.swap ..)]
    exact ⟨_, List.mem_cons_self, rfl, hending⟩

end Job

end StorageLoad
