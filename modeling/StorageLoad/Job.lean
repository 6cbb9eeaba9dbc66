import StorageLoad.Reducer
import StorageLoad.Worker

/-!
A job: several workers with the same options, each with a seed of its own, and the merged
statistics of them all.
-/

namespace StorageLoad

structure Job where
  options : Options
  settings : Settings Float

namespace Job

def logger : String := "slive.job"

/-- What keys and values of workers start from. -/
def placeholder : String := "slive"

/-- The job with some options, which have to make a configuration. -/
def ofOptions (options : Options) : Outcome Job := do
  return { options, settings := ← options.settings }

/-- The options of one worker.  The seed of a worker is that of the job plus the worker's
number. -/
def task (job : Job) (index : Nat) : Options :=
  match job.settings.seed with
  | some seed => Value.putEntry (.text "seed") (.int (seed + index)) job.options
  | none => job.options

/-- The options of all workers, by their numbers. -/
def tasks (job : Job) : List (Nat × Options) :=
  (List.range job.settings.workers.toNat).map fun index => (index, job.task index)

/-- What a worker leaves to its job. -/
structure Result where
  index : Nat
  ending : Ending
  pairs : List (String × String)
  /-- What it logged, as far as that can be written. -/
  lines : List (Outcome Log.Line)

/-- The line that says that a worker is done. -/
def Result.line (r : Result) : Log.Line :=
  ⟨.info, logger, s!"Worker {r.index} finished ({r.ending.name}), {r.pairs.length} outputs"⟩

/-- A job can run its workers in any number of processes but a negative one; no number stands for
as many as there are processors. -/
def checkProcesses : Option Int → Outcome Unit
  | some n => if n < 0 then .error .noProcesses else .ok ()
  | none => .ok ()

def startLine (job : Job) : Log.Line :=
  ⟨.info, logger, s!"Starting {job.settings.workers} workers"⟩

/-- The key and the text of every emitted statistic. -/
def pairs (records : List Record) : Outcome (List (String × String)) :=
  records.mapM fun r => do return (r.key, ← r.text)

section Run

variable {σ : Type} [Surroundings σ]

/-- Runs one worker; a worker without a seed takes another one. -/
def runTask (limit : Nat) (otherwise : Int) (index : Nat) (options : Options) (world : σ) :
    Option (Outcome (Result × σ)) :=
  match Worker.configure options with
  | (.error fault, _) => some (.error fault)
  | (.ok c, configured) =>
      let key := s!"{placeholder}-{index}"
      (Worker.account limit c key placeholder world (Worker.random c otherwise)).map
        fun account => do
        let lines ← account.lines Worker.logger
        return ({ index, ending := account.ending, pairs := ← pairs account.records,
                  lines := configured ++ lines.map .ok }, account.world)

/-- Runs workers one after the other.  Each starts in the surroundings that `enter` makes of those
the one before has left. -/
def runTasks (limit : Nat) (otherwise : Int) (enter : σ → Outcome σ) :
    List (Nat × Options) → σ → Option (Outcome (List Result × σ))
  | [], world => some (.ok ([], world))
  | (index, options) :: tasks, world =>
      match enter world with
      | .error fault => some (.error fault)
      | .ok world =>
          match runTask limit otherwise index options world with
          | none => none
          | some (.error fault) => some (.error fault)
          | some (.ok (result, world)) =>
              (runTasks limit otherwise enter tasks world).map fun rest => do
                let (results, world) ← rest
                return (result :: results, world)

end Run

/-- Merges the statistics of workers in the order in which the workers are done. -/
def merge (results : List Result) : Outcome Reducer :=
  results.foldlM (fun merged r =>
    match merged.addAll (r.pairs.map fun (key, text) => (key, .text text)) with
    | (.ok (), merged) => .ok merged
    | (.error fault, _) => .error fault) Reducer.empty

/-- How each worker ended. -/
def endings (results : List Result) : Table Nat Ending :=
  results.foldl (fun t r => t.insert r.index r.ending) Table.empty

/-- All log lines of a job whose workers run one after the other, as far as they can be
written. -/
def lines (job : Job) (results : List Result) : List (Outcome Log.Line) :=
  .ok job.startLine :: results.flatMap fun r => r.lines ++ [.ok r.line]

end Job

end StorageLoad
