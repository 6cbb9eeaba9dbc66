import StorageLoad.Arguments.Reading
import StorageLoad.Config.File
import StorageLoad.Job
import StorageLoad.Simulation

/-!
The program on the command line: it reads its arguments and an option file, runs a job against a
directory of the host or a storage service in memory, and writes the report.
-/

namespace StorageLoad.Program

open Host Arguments

/-- The name under which the program reports wrong arguments. -/
def name : String := "bench_slive.py"

namespace Flags

def help : Flag := ⟨["-h", "--help"], .help⟩

def config : Flag := ⟨["-c", "--config"], .text⟩

/-- The flags that set options, with the names of the options. -/
def options : List (Flag × String) :=
  [(⟨["-d", "--duration"], .real⟩, "duration"),
    (⟨["-s", "--seed"], .whole⟩, "seed"),
    (⟨["--sleep"], .text⟩, "sleep"),
    (⟨["-e", "--exit-on-error", "--no-exit-on-error"], .switch⟩, "exit_on_error"),
    (⟨["-o", "--ops"], .whole⟩, "ops"),
    (⟨["-w", "--workers"], .whole⟩, "workers"),
    (⟨["--base-dir"], .text⟩, "base_dir"),
    (⟨["--files"], .whole⟩, "files"),
    (⟨["--dir-size"], .whole⟩, "dir_size"),
    (⟨["--block-size"], .text⟩, "block_size"),
    (⟨["--write-size"], .text⟩, "write_size"),
    (⟨["--append-size"], .text⟩, "append_size"),
    (⟨["--read-size"], .text⟩, "read_size"),
    (⟨["--replication"], .text⟩, "replication"),
    (⟨["--result-file"], .text⟩, "result_file")]

def storage : Flag := ⟨["--fs"], .choice ["local", "memory"]⟩

def root : Flag := ⟨["--root"], .text⟩

def processes : Flag := ⟨["-p", "--processes"], .whole⟩

/-- Asks for a sign of progress, which never shows in what the program writes. -/
def progress : Flag := ⟨["--progress"], .switch⟩

def verbose : Flag := ⟨["-v", "--verbose"], .switch⟩

def all : List Flag :=
  [help, config] ++ options.map (·.1) ++ [storage, root, processes, progress, verbose]

end Flags

/-- The value that a flag is given last. -/
def value? (settings : List Setting) (flag : Flag) : Option Value :=
  (settings.reverse.find? (·.flag = flag)).map (·.value)

/-- The text that a flag is given last. -/
def text? (settings : List Setting) (flag : Flag) : Option String :=
  match value? settings flag with
  | some (.text s) => some s
  | _ => none

/-- The name of the option file, unless it is empty. -/
def configFile? (settings : List Setting) : Option String :=
  (text? settings Flags.config).filter (!·.isEmpty)

/-- The name of the root directory; what is no text names none. -/
def rootText? (settings : List Setting) : Option String :=
  match value? settings Flags.root with
  | none => some "slive-data"
  | some (.text s) => some s
  | some _ => none

/-- Whether the storage service is a directory of the host, as it is unless something else is
chosen. -/
def onHost (settings : List Setting) : Bool :=
  match value? settings Flags.storage with
  | none => true
  | some (.text s) => s = "local"
  | some _ => false

def processes? (settings : List Setting) : Option Int :=
  match value? settings Flags.processes with
  | some (.int n) => some n
  | _ => none

/-- A verbose run shows every line, any other none of those that workers write about each
operation. -/
def logSetup (settings : List Setting) : Log.Setup :=
  if (value? settings Flags.verbose).isSome then ⟨.debug, []⟩ else ⟨.info, [Worker.logger]⟩

/-- The options that are given by flags. -/
def overrides (settings : List Setting) : Options :=
  Flags.options.filterMap fun (flag, name) =>
    (value? settings flag).map fun v => (.text name, v)

/-- What the host makes of a path. -/
def onPath {α : Type} (path : String) (r : Except Obstacle α) : Outcome α :=
  r.mapError fun cause => .host cause path

/-- The text of a file.  What is no text is no document. -/
def fileText (files : Tree) (here : Place) (path : String) : Outcome String := do
  let place ← onPath path (files.locate (base here path) (namesOf path))
  match files.get? place with
  | none => throw (.host .missing path)
  | some .directory => throw (.host .isDirectory path)
  | some (.file data) =>
      match String.fromUTF8? ⟨data.toArray⟩ with
      | some text => return text
      | none => throw .malformedDocument

/-- The files with a text written to one of them. -/
def putText (files : Tree) (here : Place) (path text : String) : Outcome Tree := do
  let place ← onPath path (files.fileTarget (base here path) (namesOf path))
  return files.insert place (.file text.toUTF8.toList)

/-- The options of a run: those in the option file, and over them those given by flags. -/
def options (files : Tree) (here : Place) (settings : List Setting) : Outcome Options := do
  let given ← match configFile? settings with
    | some path => Options.ofFile path (some (← fileText files here path))
    | none => pure []
  return given.override (overrides settings)

/-- What a run of the program leaves. -/
structure Closing where
  exit : Nat
  output : String
  /-- What it says about a failure. -/
  complaint : Option String
  log : List Log.Line
  files : Tree

/-- The end of a run that writes nothing but what is wrong. -/
def Closing.refuse (files : Tree) (exit : Nat) (complaint : String) : Closing :=
  { exit, output := "", complaint := some complaint, log := [], files }

/-- The list of all flags. -/
def usage : String :=
  let lines := s!"usage: {name} [options]" :: Flags.all.map fun flag => "  " ++ flag.title
  "\n".intercalate lines ++ "\n"

/-- Runs the workers of a job one after the other against the chosen storage service, which every
worker sets up anew.  The clock moves by sleeps and by what calls cost. -/
def runJob (limit : Nat) (otherwise : Int) (cost : Int) (files : Tree) (here : Place)
    (settings : List Setting) (job : Job) : Option (Outcome (List Job.Result × Tree)) :=
  let costs : Simulation.Costs := { own := [], usual := cost }
  if !onHost settings then
    let enter (w : Simulation Memory) : Outcome (Simulation Memory) :=
      .ok { w with store := Memory.fresh 0 }
    (Job.runTasks limit otherwise enter job.tasks
      (.start (Memory.fresh 0) costs [] none false)).map
      fun r => r.map fun (results, _) => (results, files)
  else
    let name := rootText? settings
    let root := place here (name.getD "")
    let enter (w : Simulation Local) : Outcome (Simulation Local) := do
      match name with
      | none => throw (.shape (.notPath "list"))
      | some path => return { w with store := ← onPath path (Local.ofRoot w.store.tree root) }
    let start : Local := { tree := files, root, factors := .empty }
    (Job.runTasks limit otherwise enter job.tasks (.start start costs [] none false)).map
      fun r => r.map fun (results, w) => (results, w.store.tree)

/-- Writes the report of a job to its result file, or else to the output. -/
def report (here : Place) (settings : List Setting) (job : Job) (results : List Job.Result)
    (files : Tree) : Outcome Closing := do
  let report := Report.ofRecords (← Job.merge results).outputs
  let log := (logSetup settings).filter ((job.lines results).filterMap Except.toOption)
  match job.settings.resultFile.filter (!·.isEmpty) with
  | some path => do
      let opened ← putText files here path ""
      let files ← putText opened here path (← report.text)
      return { exit := 0, output := "", complaint := none, log, files }
  | none => return { exit := 0, output := ← report.text, complaint := none, log, files }

/-- A run with the files there are, from a working directory.  Workers without a seed of their own
take another one; `none` is a run that does not end within the limit. -/
def run (limit : Nat) (otherwise : Int) (cost : Int) (files : Tree) (here : Place)
    (arguments : List String) : Option (Outcome Closing) :=
  match Arguments.read Flags.all arguments with
  | .error .help =>
      some (.ok { exit := 0, output := usage, complaint := none, log := [], files })
  | .error (.mistake cause) =>
      some (.ok (.refuse files 2 s!"{name}: error: {cause.message}"))
  | .ok settings =>
      match options files here settings >>= Job.ofOptions with
      | .error fault =>
          if fault.family = .option then some (.ok (.refuse files 1 s!"error: {fault.message}"))
          else some (.error fault)
      | .ok job =>
          match Job.checkProcesses (processes? settings) with
          | .error fault => some (.error fault)
          | .ok () =>
              (runJob limit otherwise cost files here settings job).map fun r => do
                let (results, files) ← r
                report here settings job results files

end StorageLoad.Program
