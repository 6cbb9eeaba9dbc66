import StorageLoad.Program

/-!
The program itself.  It gives a run the option file that is named on the command line, and puts on
the host what the run leaves: the files of the storage service, the result file, the log and the
report.
-/

namespace StorageLoad.Program

/-- More rounds and polls than a run ever takes. -/
def roundLimit : Nat := 1000000000000

/-- The path text of a place. -/
def pathText (place : Host.Place) : String :=
  String.ofList (place.flatMap fun name => '/' :: name)

/-- A tree that holds the directories on the way to a place. -/
def directoriesTo (files : Host.Tree) (place : Host.Place) : Host.Tree :=
  (files.makeDirectories [] place.reverse).2

/-- The files a run starts from: the directories on the way to where it runs, and the option
file. -/
def initialFiles (here : Host.Place) (arguments : List String) : IO Host.Tree := do
  let files := directoriesTo Host.Tree.bare here
  match Arguments.read Flags.all arguments with
  | .error _ => return files
  | .ok settings =>
      match configFile? settings with
      | none => return files
      | some path =>
          try
            let text ← IO.FS.readFile path
            let place := Host.place here path
            return (directoriesTo files place.dropLast).insert place (.file text.toUTF8.toList)
          catch _ => return files

/-- Puts on the host whatever is new or changed. -/
def writeChanges (before after : Host.Tree) : IO Unit := do
  for (place, node) in after.entries do
    if before.get? place ≠ some node then
      match node with
      | .directory => IO.FS.createDirAll (pathText place)
      | .file data => IO.FS.writeBinFile (pathText place) ⟨data.toArray⟩

/-- Shows what a run leaves, and answers with its exit code. -/
def close (before : Host.Tree) (c : Closing) : IO UInt32 := do
  for line in c.log do
    IO.eprintln line.shown
  writeChanges before c.files
  IO.print c.output
  match c.complaint with
  | some text => IO.eprintln text
  | none => pure ()
  return UInt32.ofNat c.exit

end StorageLoad.Program

open StorageLoad in
/-- Runs the program in the current directory.  A call of the storage service takes a
millisecond. -/
def main (arguments : List String) : IO UInt32 := do
  let here := Host.place [] (← IO.currentDir).toString
  let files ← Program.initialFiles here arguments
  let seed ← IO.rand 0 (2 ^ 31 - 1)
  match Program.run Program.roundLimit seed 1 files here arguments with
  | none =>
      IO.eprintln "error: the run does not end"
      return 1
  | some (.error fault) =>
      IO.eprintln s!"error: {fault.message}"
      return 1
  | some (.ok closing) => Program.close files closing
