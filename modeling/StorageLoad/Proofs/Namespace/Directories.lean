import Mathlib.Data.Set.Image
import StorageLoad.Proofs.Memory.Parents
import StorageLoad.Proofs.Memory.Scan
import StorageLoad.Proofs.Namespace
import StorageLoad.Proofs.Operation
import StorageLoad.Proofs.Reach

/-!
Files and directories that can be drawn.  The directories are reckoned apart from the files, and
yet are just the parents of the files, wherever the namespace lies: all are full but the last, and
that one is not empty (`directories_exact`).
-/

namespace StorageLoad

namespace Path

variable {b c : Path} {name other : Name}

theorem directory_append_slash (hb : b.IsBare) (hname : '/' ∉ name) :
    directory (b ++ '/' :: name) = b := by
  have hall : ¬ (b ++ ['/']).all (· = '/') := by
    rw [List.all_append, Bool.and_eq_true]
    exact fun hall => hb.not_all_slash hall.1
  rw [directory, upToSlash_append_slash b hname, if_neg hall, stripSlashes_append_slash, hb.strip]

theorem append_slash_inj (hname : '/' ∉ name) (hother : '/' ∉ other)
    (h : b ++ '/' :: name = c ++ '/' :: other) :
    b = c ∧ name = other := by
  have hup := congrArg upToSlash h
  rw [upToSlash_append_slash b hname, upToSlash_append_slash c hother] at hup
  obtain rfl := List.append_cancel_right hup
  exact ⟨rfl, (List.cons.inj (List.append_cancel_left h)).2⟩

theorem isBare_append (front : Path) (hname : name.IsProper) : IsBare (front ++ name) := by
  cases name using List.reverseRecOn with
  | nil => exact absurd rfl hname.ne_nil
  | append_singleton init last =>
      have hlast : last ≠ '/' := by
        rintro rfl
        exact hname.slash_not_mem (by simp)
      refine ⟨by simp, ?_⟩
      rw [stripSlashes]
      simp [hlast]

theorem isBare_join (d : Path) (hname : name.IsProper) : (d.join name).IsBare := by
  have hhead : ¬ name.head? = some '/' :=
    fun hhead => hname.slash_not_mem (List.mem_of_mem_head? hhead)
  rw [join, if_neg hhead]
  split
  · exact isBare_append d hname
  · rw [List.append_cons]
    exact isBare_append (d ++ ['/']) hname

theorem join_of_isBare (hb : b.IsBare) (hname : name.IsProper) :
    b.join name = b ++ '/' :: name := by
  have hhead : ¬ name.head? = some '/' :=
    fun hhead => hname.slash_not_mem (List.mem_of_mem_head? hhead)
  rw [join, if_neg hhead, if_neg]
  rintro (hnil | hlast)
  · exact hb.ne_nil hnil
  · have hstop := getLast?_stripSlashes_ne b
    rw [hb.strip] at hstop
    exact hstop hlast

end Path

open StorageLoad.Path

namespace Namespace

section Numbers

theorem injective_of_toDigits {word : List Char} {numbered : Nat → Name}
    (h : ∀ number, numbered number = word ++ Nat.toDigits 10 number) :
    Function.Injective numbered := by
  intro number other heq
  rw [h, h] at heq
  have hdigits := List.append_cancel_left heq
  calc
    number = Nat.ofDigitChars 10 (Nat.toDigits 10 number) 0 := Nat.ofDigitChars_ten_toDigits.symm
    _ = Nat.ofDigitChars 10 (Nat.toDigits 10 other) 0 := by rw [hdigits]
    _ = other := Nat.ofDigitChars_ten_toDigits

theorem directoryName_injective : Function.Injective directoryName :=
  injective_of_toDigits fun _ => String.toList_append.trans (congrArg _ Nat.toList_repr)

theorem fileName_injective : Function.Injective fileName :=
  injective_of_toDigits fun _ => String.toList_append.trans (congrArg _ Nat.toList_repr)

theorem countP_div_eq (bound quotient : Nat) {size : Nat} (hsize : 0 < size) :
    (List.range bound).countP (· / size = quotient) = min size (bound - quotient * size) := by
  induction bound with
  | zero => rw [List.range_zero, List.countP_nil, Nat.zero_sub, Nat.min_zero]
  | succ bound ih =>
      have hquotient := Nat.div_eq_iff (x := bound) (y := quotient) hsize
      rw [List.range_succ, List.countP_append, ih, List.countP_singleton]
      simp only [decide_eq_true_eq]
      split
      · rename_i heq
        rw [hquotient] at heq
        omega
      · rename_i hne
        rw [hquotient] at hne
        omega

end Numbers

section Paths

variable (s : Namespace)

theorem isBare_dataDir : s.dataDir.IsBare :=
  isBare_join s.baseDir (show Name.IsProper dataName by decide)

theorem isBare_directory (number : Nat) : (s.directory number).IsBare :=
  isBare_join s.dataDir (isProper_directoryName number)

theorem directory_eq (number : Nat) :
    s.directory number = s.dataDir ++ '/' :: directoryName number :=
  join_of_isBare s.isBare_dataDir (isProper_directoryName number)

theorem file_eq (number : Nat) :
    s.file number = s.directory (number / s.dirSize) ++ '/' :: fileName number :=
  join_of_isBare (s.isBare_directory _) (isProper_fileName number)

theorem directory_file (number : Nat) :
    (s.file number).directory = s.directory (number / s.dirSize) := by
  rw [file_eq,
    directory_append_slash (s.isBare_directory _) (isProper_fileName number).slash_not_mem]

theorem directory_injective : Function.Injective s.directory := by
  intro number other h
  rw [directory_eq, directory_eq] at h
  exact directoryName_injective (append_slash_inj (isProper_directoryName number).slash_not_mem
    (isProper_directoryName other).slash_not_mem h).2

theorem file_injective : Function.Injective s.file := by
  intro number other h
  rw [file_eq, file_eq] at h
  exact fileName_injective (append_slash_inj (isProper_fileName number).slash_not_mem
    (isProper_fileName other).slash_not_mem h).2

theorem lt_directories_iff (number : Nat) :
    number < s.directories ↔ number * s.dirSize < s.files := by
  have hsize := s.dirSize_pos
  rw [directories, Nat.lt_iff_add_one_le, Nat.le_div_iff_mul_le hsize, Nat.succ_mul]
  omega

/-- How many files lie in a directory. -/
def filesIn (p : Path) : Nat :=
  (List.range s.files).countP fun number => (s.file number).directory = p

theorem filesIn_directory (number : Nat) :
    s.filesIn (s.directory number) = min s.dirSize (s.files - number * s.dirSize) := by
  rw [filesIn, ← countP_div_eq s.files number s.dirSize_pos]
  simp only [directory_file, s.directory_injective.eq_iff]

end Paths

section Results

variable {ρ : Type} [RandomSource ρ] {s : Namespace} {p : Path}

/-- The paths that drawing a file can come to. -/
def fileResults (ρ : Type) [RandomSource ρ] (s : Namespace) : Set Path :=
  {p | ∃ r : ρ, (s.chooseFile r).1 = .ok p}

/-- The paths that drawing a directory can come to. -/
def directoryResults (ρ : Type) [RandomSource ρ] (s : Namespace) : Set Path :=
  {p | ∃ r : ρ, (s.chooseDirectory r).1 = .ok p}

theorem map_integerText_eq_ok_iff {n : Int} {q : Path} :
    (integerText n).map (fun _ => q) = .ok p ↔ Value.isOversized n = false ∧ p = q := by
  rw [integerText]
  cases Value.isOversized n with
  | false => exact ⟨fun h => ⟨rfl, (Except.ok.inj h).symm⟩, fun h => congrArg _ h.2.symm⟩
  | true =>
      constructor
      · intro h
        cases h
      · intro h
        cases h.1

theorem chooseFile_fst (s : Namespace) (r : ρ) : (s.chooseFile r).1 =
    (integerText (RandomSource.below s.files r).1).map fun _ =>
      s.file (RandomSource.below s.files r).1 := by
  rw [chooseFile]

theorem chooseDirectory_fst (s : Namespace) (r : ρ) : (s.chooseDirectory r).1 =
    (integerText (RandomSource.below s.directories r).1).map
      fun _ => s.directory (RandomSource.below s.directories r).1 := by
  rw [chooseDirectory]

theorem exists_map_integerText_iff {bound : Nat} (hpos : 0 < bound)
    (h : RandomSource.Reaches ρ bound) (path : Nat → Path) :
    (∃ r : ρ, (integerText (RandomSource.below bound r).1).map
      (fun _ => path (RandomSource.below bound r).1) = .ok p) ↔
      ∃ number < bound, Value.isOversized number = false ∧ p = path number := by
  constructor
  · rintro ⟨r, hr⟩
    have hlt := RandomSource.below_lt hpos r
    generalize (RandomSource.below bound r).1 = number at hr hlt
    exact ⟨number, hlt, map_integerText_eq_ok_iff.mp hr⟩
  · rintro ⟨number, hlt, hpath⟩
    obtain ⟨r, hr⟩ := h number hlt
    refine ⟨r, ?_⟩
    rw [hr]
    exact map_integerText_eq_ok_iff.mpr hpath

theorem mem_fileResults_iff (h : RandomSource.Reaches ρ s.files) :
    p ∈ s.fileResults ρ ↔ ∃ number < s.files, Value.isOversized number = false ∧
      p = s.file number := by
  rw [← exists_map_integerText_iff s.files_pos h s.file, fileResults, Set.mem_ofPred_eq]
  simp only [chooseFile_fst]

theorem mem_directoryResults_iff (h : RandomSource.Reaches ρ s.directories) :
    p ∈ s.directoryResults ρ ↔
      ∃ number < s.directories, Value.isOversized number = false ∧ p = s.directory number := by
  rw [← exists_map_integerText_iff s.directories_pos h s.directory, directoryResults,
    Set.mem_ofPred_eq]
  simp only [chooseDirectory_fst]

/-- Of so few files that every number can be written, and with a source that can yield every
number: each draw comes to a path; the paths of files are told apart by their numbers; the
directories that can be drawn are the parents of the files that can be drawn; and each is the
parent of one file at least, and of as many as a directory holds unless it is the last. -/
theorem directories_exact (hwritten : s.files ≤ 10 ^ digitLimit)
    (hfiles : RandomSource.Reaches ρ s.files)
    (hdirectories : RandomSource.Reaches ρ s.directories) :
    (∀ r : ρ, (∃ p, (s.chooseFile r).1 = .ok p) ∧ ∃ p, (s.chooseDirectory r).1 = .ok p) ∧
      s.fileResults ρ = {p | ∃ number < s.files, p = s.file number} ∧ Function.Injective s.file ∧
      s.directoryResults ρ = Path.directory '' s.fileResults ρ ∧
      ∀ p ∈ s.directoryResults ρ, 1 ≤ s.filesIn p ∧ s.filesIn p ≤ s.dirSize ∧
        (p ≠ s.directory (s.directories - 1) → s.filesIn p = s.dirSize) := by
  have hsize := s.dirSize_pos
  have hfileNumber : ∀ {number : Nat}, number < s.files → Value.isOversized number = false :=
    fun hlt => isOversized_of_lt hwritten hlt
  have hdirectoryNumber : ∀ {number : Nat}, number < s.directories →
      Value.isOversized number = false :=
    fun hlt => hfileNumber (Nat.lt_of_lt_of_le hlt s.directories_le)
  refine ⟨fun r => ⟨?anyFile, ?anyDirectory⟩, ?files, s.file_injective, ?parents, ?shares⟩
  case anyFile =>
    obtain ⟨p, hp, -⟩ := s.exists_chooseFile hwritten r
    exact ⟨p, hp⟩
  case anyDirectory =>
    obtain ⟨p, hp, -⟩ := s.exists_chooseDirectory hwritten r
    exact ⟨p, hp⟩
  case files =>
    ext p
    rw [mem_fileResults_iff hfiles]
    constructor
    · rintro ⟨number, hlt, -, heq⟩
      exact ⟨number, hlt, heq⟩
    · rintro ⟨number, hlt, heq⟩
      exact ⟨number, hlt, hfileNumber hlt, heq⟩
  case parents =>
    ext p
    rw [mem_directoryResults_iff hdirectories, Set.mem_image]
    constructor
    · rintro ⟨number, hlt, -, rfl⟩
      -- The first file of a directory is there, since the last directory is not empty.
      have hfirst := (s.lt_directories_iff number).mp hlt
      refine ⟨s.file (number * s.dirSize),
        (mem_fileResults_iff hfiles).mpr ⟨_, hfirst, hfileNumber hfirst, rfl⟩, ?_⟩
      rw [directory_file, Nat.mul_div_cancel _ hsize]
    · rintro ⟨q, hq, rfl⟩
      obtain ⟨number, hlt, -, rfl⟩ := (mem_fileResults_iff hfiles).mp hq
      have hparent := div_lt_directories hlt
      exact ⟨number / s.dirSize, hparent, hdirectoryNumber hparent, s.directory_file number⟩
  case shares =>
    intro p hp
    obtain ⟨number, hlt, -, rfl⟩ := (mem_directoryResults_iff hdirectories).mp hp
    have hfirst := (s.lt_directories_iff number).mp hlt
    rw [filesIn_directory]
    refine ⟨by omega, Nat.min_le_left _ _, fun hne => ?_⟩
    have hnext : number + 1 < s.directories := by
      have hlast : number ≠ s.directories - 1 := fun heq => hne (congrArg s.directory heq)
      omega
    rw [s.lt_directories_iff, Nat.succ_mul] at hnext
    exact Nat.min_eq_left (by omega)

/-- Seven files, of which three go into a directory. -/
def seven : Namespace where
  baseDir := ofString "/b"
  files := 7
  dirSize := 3
  files_pos := by decide
  dirSize_pos := by decide

theorem directories_exact_seven : seven.files ≤ 10 ^ digitLimit ∧
    RandomSource.Reaches Listed seven.files ∧ RandomSource.Reaches Listed seven.directories ∧
    seven.directoryResults Listed = Path.directory '' seven.fileResults Listed ∧
    seven.directory 1 ∈ seven.directoryResults Listed ∧ seven.filesIn (seven.directory 1) = 3 ∧
    seven.directory 2 ∈ seven.directoryResults Listed ∧
    1 ≤ seven.filesIn (seven.directory 2) := by
  have hwritten : seven.files ≤ 10 ^ digitLimit :=
    Nat.le_trans (show 7 ≤ 10 by decide) (Nat.le_self_pow (by decide) 10)
  have hfiles := RandomSource.reaches_listed seven.files
  have hdirectories := RandomSource.reaches_listed seven.directories
  obtain ⟨-, hresults, -, hparents, hshares⟩ := directories_exact hwritten hfiles hdirectories
  have hmember : ∀ number < seven.files,
      seven.directory (number / 3) ∈ seven.directoryResults Listed := by
    intro number hlt
    rw [hparents, hresults]
    exact ⟨seven.file number, ⟨number, hlt, rfl⟩, seven.directory_file number⟩
  have hsecond := hmember 5 (by decide)
  have hlast := hmember 6 (by decide)
  refine ⟨hwritten, hfiles, hdirectories, hparents, hsecond, ?_, hlast, (hshares _ hlast).1⟩
  exact (hshares _ hsecond).2.2 (by decide)

/-- Twice as many files as there are numbers that can be written, two to a directory. -/
def twofold : Namespace where
  baseDir := ofString "/b"
  files := 2 * 10 ^ digitLimit
  dirSize := 2
  files_pos := Nat.mul_pos Nat.two_pos (Nat.pow_pos (by decide))
  dirSize_pos := Nat.two_pos

/-- The last directory has a number that can be written, and no file in it has. -/
theorem directories_twofold : RandomSource.Reaches Listed twofold.files ∧
    RandomSource.Reaches Listed twofold.directories ∧
    twofold.directoryResults Listed ≠ Path.directory '' twofold.fileResults Listed := by
  have hfiles := RandomSource.reaches_listed twofold.files
  have hdirectories := RandomSource.reaches_listed twofold.directories
  refine ⟨hfiles, hdirectories, fun heq => ?_⟩
  have hten : 10 ≤ 10 ^ digitLimit := Nat.le_self_pow (by decide) 10
  have hlast : twofold.directory (10 ^ digitLimit - 1) ∈ twofold.directoryResults Listed := by
    refine (mem_directoryResults_iff hdirectories).mpr ⟨_, (twofold.lt_directories_iff _).mpr ?_,
      isOversized_of_lt le_rfl (Nat.sub_lt (by omega) Nat.one_pos), rfl⟩
    have hsizes : twofold.dirSize = 2 ∧ twofold.files = 2 * 10 ^ digitLimit := ⟨rfl, rfl⟩
    rw [hsizes.1, hsizes.2]
    omega
  rw [heq] at hlast
  obtain ⟨q, hq, hparent⟩ := hlast
  obtain ⟨number, -, hwritten, rfl⟩ := (mem_fileResults_iff hfiles).mp hq
  rw [directory_file] at hparent
  have hnumber : number / 2 = 10 ^ digitLimit - 1 := twofold.directory_injective hparent
  have hlt : number < 10 ^ digitLimit := Nat.not_le.mp (of_decide_eq_false hwritten)
  omega

end Results

end Namespace

end StorageLoad
