import StorageLoad.Fault
import StorageLoad.Random.Source

/-!
The bounded namespace that workers pick their paths from: numbered files, a fixed number of them
to a directory.  A file or a directory is drawn by its number, which has to be written out
(`chooseFile`, `chooseDirectory`); there always is one to draw (`directories_pos`).
-/

namespace StorageLoad

/-- Files `0` to `files - 1`, laid out `dirSize` to a directory below the base directory. -/
structure Namespace where
  baseDir : Path
  files : Nat
  dirSize : Nat
  files_pos : 0 < files
  dirSize_pos : 0 < dirSize

namespace Namespace

/-- The namespace with given sizes, neither of which may be zero. -/
def ofSizes (baseDir : Path) (files dirSize : Int) : Outcome Namespace :=
  if h : 0 < files ∧ 0 < dirSize then
    .ok ⟨baseDir, files.toNat, dirSize.toNat, by omega, by omega⟩
  else .error .emptyNamespace

/-- The directory that holds the whole namespace. -/
def dataDir (s : Namespace) : Path :=
  s.baseDir.join (Path.ofString "data")

/-- The path of a directory by its number. -/
def directory (s : Namespace) (number : Nat) : Path :=
  s.dataDir.join (Path.ofString s!"sl_dir_{number}")

/-- The path of a file by its number. -/
def file (s : Namespace) (number : Nat) : Path :=
  (s.directory (number / s.dirSize)).join (Path.ofString s!"sl_file_{number}")

/-- The number of directories: the last one need not be full. -/
def directories (s : Namespace) : Nat :=
  (s.files + s.dirSize - 1) / s.dirSize

theorem directories_pos (s : Namespace) : 0 < s.directories := by
  have hfiles := s.files_pos
  have hsize := s.dirSize_pos
  exact Nat.div_pos (by omega) hsize

section Draw

variable {ρ : Type} [RandomSource ρ]

/-- A random file, if its number is not too long to be written. -/
def chooseFile (s : Namespace) (r : ρ) : Outcome Path × ρ :=
  let (number, r) := RandomSource.below s.files r
  ((integerText number).map fun _ => s.file number, r)

/-- A random directory, if its number is not too long to be written. -/
def chooseDirectory (s : Namespace) (r : ρ) : Outcome Path × ρ :=
  let (number, r) := RandomSource.below s.directories r
  ((integerText number).map fun _ => s.directory number, r)

end Draw

end Namespace

end StorageLoad
