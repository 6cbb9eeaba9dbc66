import StorageLoad.Config.Settings
import StorageLoad.Namespace
import StorageLoad.Report
import StorageLoad.Surroundings

/-!
The operations.  Each draws its targets and sizes first, then calls the storage service, and tells
what came of it.
-/

namespace StorageLoad

/-- A kind as it is shown apart from its name. -/
def Kind.shown (kind : Kind) : String :=
  let capital (word : List Char) : List Char :=
    match word with
    | [] => []
    | c :: cs => c.toUpper :: cs
  let words := Text.splitAll '_' kind.name.toList
  s!"<{String.ofList (words.flatMap capital)}Op {kind.name}>"

/-- The kind with a name, which there has to be. -/
def Kind.parse (name : String) : Outcome Kind :=
  match Kind.ofName? name with
  | some kind => .ok kind
  | none => .error (.badKind (Text.Quoted.encode name))

namespace Settings

/-- The namespace of a configuration. -/
def space {𝕜 : Type} (c : Settings 𝕜) : Outcome Namespace :=
  Namespace.ofSizes (Path.ofString c.baseDir) c.fileCount c.dirSize

end Settings

namespace Operation

variable {σ ρ 𝕜 : Type} [RandomSource ρ] [Surroundings σ]

def succeeded (kind : Kind) : Record :=
  .long kind.name Measurement.successes 1

def missed (kind : Kind) : Record :=
  .long kind.name Measurement.failures 1

def absent (kind : Kind) : Record :=
  .long kind.name Measurement.notFound 1

def took (kind : Kind) (ms : Int) : Record :=
  .long kind.name Measurement.timeTaken ms

def create (c : Settings 𝕜) (space : Namespace) : Action σ ρ (List Record) := do
  let path ← Action.drawOutcome space.chooseFile
  let size ← Action.draw c.writeSize.draw
  let replication ← Action.draw c.replication.draw
  let blockSize ← Action.draw c.blockSize.draw
  let data ← Action.drawOutcome (Segment.draw size)
  let written ← Action.ask (.create path data (.int replication) (.int blockSize))
  return [succeeded .create, .long Kind.create.name Measurement.filesCreated 1,
    .long Kind.create.name Measurement.bytesWritten (← written.toInt)]

def append (c : Settings 𝕜) (space : Namespace) : Action σ ρ (List Record) := do
  let path ← Action.drawOutcome space.chooseFile
  let size ← Action.draw c.appendSize.draw
  let data ← Action.drawOutcome (Segment.draw size)
  let written ← Action.ask (.append path data)
  return [succeeded .append, .long Kind.append.name Measurement.bytesWritten (← written.toInt)]

def delete (space : Namespace) : Action σ ρ (List Record) := do
  let path ← Action.drawOutcome space.chooseFile
  let done ← Action.ask (.delete path)
  return if done.isTruthy then [succeeded .delete] else [missed .delete]

def rename (space : Namespace) : Action σ ρ (List Record) := do
  let source ← Action.drawOutcome space.chooseFile
  let target ← Action.drawOutcome space.chooseFile
  let done ← Action.ask (.rename source target)
  return if done.isTruthy then [succeeded .rename] else [missed .rename]

def read (c : Settings 𝕜) (space : Namespace) : Action σ ρ (List Record) := do
  let path ← Action.drawOutcome space.chooseFile
  let length ← Action.draw c.readSize.draw
  let verdict ← (← Action.ask (.read path (.int length))).verify
  return [succeeded .read, .long Kind.read.name Measurement.bytesRead verdict.bytesRead,
    .long Kind.read.name Measurement.chunksVerified verdict.verified,
    .long Kind.read.name Measurement.chunksUnverified verdict.unverified]

def ls (space : Namespace) : Action σ ρ (List Record) := do
  let path ← Action.drawOutcome space.chooseDirectory
  let entries ← Action.ask (.listdir path)
  return [succeeded .ls, .long Kind.ls.name Measurement.dirEntries (← entries.length)]

def mkdir (space : Namespace) : Action σ ρ (List Record) := do
  let path ← Action.drawOutcome space.chooseDirectory
  let done ← Action.ask (.mkdirs path)
  return if done.isTruthy then
      [succeeded .mkdir, .long Kind.mkdir.name Measurement.dirsCreated 1]
    else [missed .mkdir]

/-- Asks for a path's replication factor until it is the awaited one, and sleeps in between.
Fails when it is another one after the configured time.  No more than `polls` answers are waited
for. -/
def awaitReplicas (c : Settings 𝕜) (path : Path) (replicas start : Int) :
    Nat → Action σ ρ Unit
  | 0 => Action.ofCourse Course.endless
  | polls + 1 => do
      let factor ← Action.ask (.getReplication path)
      if factor.isInt replicas then
        Action.note (.settled path replicas (← Action.elapsed start))
      else if c.timeoutMs ≤ (← Action.elapsed start) then
        throw (Fault.writing [replicas] (.store (.timedOut replicas path)))
      else
        Action.sleep c.pollMs
        awaitReplicas c path replicas start polls

def setReplication (polls : Nat) (c : Settings 𝕜) (space : Namespace) :
    Action σ ρ (List Record) := do
  let path ← Action.drawOutcome space.chooseFile
  let replicas ← Action.draw c.replication.draw
  let done ← Action.ask (.setReplication path (.int replicas))
  if done.isTruthy then
    awaitReplicas c path replicas (← Action.now) polls
    return [succeeded .setReplication]
  else return [missed .setReplication]

/-- Sleeps for a random time of the configured range. -/
def pause (c : Settings 𝕜) : Action σ ρ (List Record) := do
  match c.pause with
  | none => throw .noPauseRange
  | some range =>
      let ms ← Action.draw range.draw
      let start ← Action.now
      Action.sleep ms
      return [succeeded .sleep, took .sleep (← Action.elapsed start)]

/-- What an operation other than a pause does; waiting for replicas takes at most `polls`
answers. -/
def perform (polls : Nat) (c : Settings 𝕜) (space : Namespace) :
    Kind → Action σ ρ (List Record)
  | .create => create c space
  | .append => append c space
  | .delete => delete space
  | .rename => rename space
  | .setReplication => setReplication polls c space
  | .read => read c space
  | .ls => ls space
  | .mkdir => mkdir space
  | .sleep => pause c

/-- Whether an operation can be set up. -/
def ready (c : Settings 𝕜) (kind : Kind) : Outcome Unit :=
  if kind = .sleep then if c.pause.isNone then .error .noPauseRange else .ok ()
  else c.space.map fun _ => ()

/-- Runs an operation and adds the time it took.  A path that is not there is a failed attempt,
every other fault goes to the caller. -/
def run (polls : Nat) (c : Settings 𝕜) (kind : Kind) : Action σ ρ (List Record) := do
  if kind = .sleep then pause c
  else
    let space ← c.space
    let start ← Action.now
    match ← Action.ofCourse (ExceptT.run (perform polls c space kind)) with
    | .ok outputs => return outputs ++ [took kind (← Action.elapsed start)]
    | .error fault =>
        if fault.family = .notFound then
          return [missed kind, absent kind, took kind (← Action.elapsed start)]
        else throw fault

end Operation

end StorageLoad
