import Mathlib.Data.List.Perm.Subperm
import StorageLoad.Namespace
import StorageLoad.Proofs.Literal
import StorageLoad.Proofs.Memory.Plan

/-!
The namespace as a plan.  Where its base directory is a normalised path, files and directories
have places that are told by their names, and no place is for both (`plan`).
-/

namespace StorageLoad

open StorageLoad.Path

namespace Namespace

section Sizes

variable {baseDir : Path} {files dirSize : Int} {s : Namespace}

theorem exists_ofSizes (hfiles : 0 < files) (hsize : 0 < dirSize) :
    ∃ s, ofSizes baseDir files dirSize = .ok s := by
  rw [ofSizes, dif_pos ⟨hfiles, hsize⟩]
  exact ⟨_, rfl⟩

theorem of_ofSizes (h : ofSizes baseDir files dirSize = .ok s) :
    s.baseDir = baseDir ∧ (s.files : Int) = files ∧ (s.dirSize : Int) = dirSize := by
  rw [ofSizes] at h
  split at h
  · rename_i hpos
    rw [← Except.ok.inj h]
    exact ⟨rfl, Int.toNat_of_nonneg (Int.le_of_lt hpos.1),
      Int.toNat_of_nonneg (Int.le_of_lt hpos.2)⟩
  · cases h

end Sizes

section Names

def dataName : Name :=
  ofString "data"

def directoryName (number : Nat) : Name :=
  ofString s!"sl_dir_{number}"

def fileName (number : Nat) : Name :=
  ofString s!"sl_file_{number}"

theorem slash_not_mem_toDigits (number : Nat) : '/' ∉ Nat.toDigits 10 number :=
  fun h => absurd (Literal.isDigit_of_mem_toDigits _ h) (by decide)

theorem isProper_append_toDigits {word : List Char} (hhead : word.head? = some 's')
    (hslash : '/' ∉ word) (number : Nat) : Name.IsProper (word ++ Nat.toDigits 10 number) := by
  cases word with
  | nil => cases hhead
  | cons c cs =>
      obtain rfl := Option.some.inj hhead
      refine ⟨List.cons_ne_nil _ _, ?_, ?_⟩
      · rw [List.mem_append]
        rintro (hmem | hmem)
        · exact hslash hmem
        · exact slash_not_mem_toDigits number hmem
      · simp [Host.isDots, Host.current, Host.parent]

theorem isProper_directoryName (number : Nat) : (directoryName number).IsProper := by
  have hname : directoryName number = "sl_dir_".toList ++ Nat.toDigits 10 number :=
    String.toList_append.trans (congrArg _ Nat.toList_repr)
  rw [hname]
  exact isProper_append_toDigits rfl (by decide) number

theorem isProper_fileName (number : Nat) : (fileName number).IsProper := by
  have hname : fileName number = "sl_file_".toList ++ Nat.toDigits 10 number :=
    String.toList_append.trans (congrArg _ Nat.toList_repr)
  rw [hname]
  exact isProper_append_toDigits rfl (by decide) number

end Names

section Places

variable (s : Namespace) {base : List Name}

/-- The names that lead to a directory. -/
def directoryPlace (base : List Name) (number : Nat) : List Name :=
  base ++ [dataName] ++ [directoryName number]

/-- The names that lead to a file. -/
def filePlace (base : List Name) (number : Nat) : List Name :=
  directoryPlace base (number / s.dirSize) ++ [fileName number]

theorem allProper_directoryPlace (hbase : AllProper base) (number : Nat) :
    AllProper (directoryPlace base number) := by
  refine allProper_append_singleton.mpr ⟨?_, isProper_directoryName number⟩
  exact allProper_append_singleton.mpr ⟨hbase, by decide⟩

theorem allProper_filePlace (hbase : AllProper base) (number : Nat) :
    AllProper (s.filePlace base number) :=
  allProper_append_singleton.mpr ⟨allProper_directoryPlace hbase _, isProper_fileName number⟩

variable {s}

theorem directory_eq_ofNames (hbase : AllProper base) (h : s.baseDir = ofNames base)
    (number : Nat) :
    s.directory number = ofNames (directoryPlace base number) := by
  have hdata : AllProper (base ++ [dataName]) :=
    allProper_append_singleton.mpr ⟨hbase, by decide⟩
  calc
    s.directory number = ((ofNames base).join dataName).join (directoryName number) := by
      rw [← h]
      rfl
    _ = (ofNames (base ++ [dataName])).join (directoryName number) := by
      rw [join_ofNames hbase (by decide)]
    _ = ofNames (directoryPlace base number) :=
      join_ofNames hdata (isProper_directoryName number)

theorem file_eq_ofNames (hbase : AllProper base) (h : s.baseDir = ofNames base) (number : Nat) :
    s.file number = ofNames (s.filePlace base number) := by
  calc
    s.file number = (s.directory (number / s.dirSize)).join (fileName number) := rfl
    _ = (ofNames (directoryPlace base (number / s.dirSize))).join (fileName number) := by
      rw [directory_eq_ofNames hbase h]
    _ = ofNames (s.filePlace base number) :=
      join_ofNames (allProper_directoryPlace hbase _) (isProper_fileName number)

theorem div_lt_directories {number : Nat} (h : number < s.files) :
    number / s.dirSize < s.directories := by
  have hpos := s.dirSize_pos
  rw [directories, Nat.div_lt_iff_lt_mul hpos]
  have hceil := Nat.lt_mul_div_succ (s.files + s.dirSize - 1) hpos
  rw [Nat.mul_add, Nat.mul_one, Nat.mul_comm] at hceil
  omega

variable (s) in
/-- The places of a namespace: its files, its directories, and what lies above. -/
def plan (base : List Name) (hbase : AllProper base) : Plan where
  files := {names | ∃ number < s.files, names = s.filePlace base number}
  directories := {names | ∃ number < s.directories, names <+: directoryPlace base number}
  proper := by
    rintro names (⟨number, -, rfl⟩ | ⟨number, -, hpre⟩)
    · exact s.allProper_filePlace hbase number
    · exact (allProper_directoryPlace hbase number).of_isPrefix hpre
  top := ⟨0, s.directories_pos, List.nil_prefix⟩
  above := by
    rintro names name (⟨number, hnumber, heq⟩ | ⟨number, hnumber, hpre⟩)
    · obtain ⟨rfl, -⟩ := List.append_inj' heq rfl
      exact ⟨number / s.dirSize, div_lt_directories hnumber, List.prefix_rfl⟩
    · exact ⟨number, hnumber, (List.prefix_append names [name]).trans hpre⟩
  disjoint := by
    rintro names ⟨number, -, rfl⟩ ⟨number', -, hpre⟩
    have hlength := hpre.length_le
    simp [filePlace, directoryPlace] at hlength

end Places

section Plan

variable {s : Namespace} {base : List Name} {hbase : AllProper base}

theorem hasFile_plan (h : s.baseDir = ofNames base) {number : Nat} (hnumber : number < s.files) :
    (s.plan base hbase).HasFile (s.file number) :=
  ⟨_, ⟨number, hnumber, rfl⟩, file_eq_ofNames hbase h number⟩

theorem hasDirectory_plan (h : s.baseDir = ofNames base) {number : Nat}
    (hnumber : number < s.directories) : (s.plan base hbase).HasDirectory (s.directory number) :=
  ⟨_, ⟨number, hnumber, List.prefix_rfl⟩, directory_eq_ofNames hbase h number⟩

theorem length_listed_le {number : Nat} {listed : List Name} (hnodup : listed.Nodup)
    (h : ∀ name ∈ listed, directoryPlace base number ++ [name] ∈ (s.plan base hbase).files ∨
      directoryPlace base number ++ [name] ∈ (s.plan base hbase).directories) :
    listed.length ≤ s.files := by
  have hsub : listed ⊆ (List.range s.files).map fileName := by
    intro name hname
    rcases h name hname with ⟨n, hn, heq⟩ | ⟨n, -, hpre⟩
    · have hlast := List.append_inj' heq rfl
      exact List.mem_map.mpr ⟨n, List.mem_range.mpr hn, (List.cons.inj hlast.2).1.symm⟩
    · have hlength := hpre.length_le
      simp [directoryPlace] at hlength
  calc
    listed.length ≤ ((List.range s.files).map fileName).length :=
      (List.subperm_of_subset hnodup hsub).length_le
    _ = s.files := by simp

end Plan

end Namespace

end StorageLoad
