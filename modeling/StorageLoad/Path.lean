import StorageLoad.Text.Half
import StorageLoad.Text.Split

/-!
Paths of the storage service, which are plain texts with `/` between names, in the order of their
code points. `directory` and `join` act on the text alone; the main statement is that walking
upwards ends (`directory_length_lt`).
-/

namespace StorageLoad

abbrev Path := List Char

namespace Path

instance : LT Path := ⟨fun p q => p.map Text.codeOf < q.map Text.codeOf⟩

instance : DecidableLT Path := fun p q =>
  inferInstanceAs (Decidable (p.map Text.codeOf < q.map Text.codeOf))

def ofString (s : String) : Path := s.toList

def toText (p : Path) : String := String.ofList p

def isAbsolute (p : Path) : Bool :=
  p.head? = some '/'

/-- The text up to and with the last slash. -/
def upToSlash (p : Path) : Path :=
  (p.reverse.dropWhile (· ≠ '/')).reverse

/-- The text without the slashes at its end. -/
def stripSlashes (p : Path) : Path :=
  (p.reverse.dropWhile (· = '/')).reverse

/-- The directory a path lies in: the text before its last slash, without the slashes at the end
of that.  A path that holds nothing but slashes before its last name lies in those slashes. -/
def directory (p : Path) : Path :=
  let head := upToSlash p
  if head.all (· = '/') then head else stripSlashes head

/-- The text after the last slash. -/
def name (p : Path) : Path :=
  (p.reverse.takeWhile (· ≠ '/')).reverse

/-- Joins a directory and a name.  An absolute name stands for itself. -/
def join (directory name : Path) : Path :=
  if name.head? = some '/' then name
  else if directory = [] ∨ directory.getLast? = some '/' then directory ++ name
  else directory ++ '/' :: name

theorem length_upToSlash_le (p : Path) : (upToSlash p).length ≤ p.length := by
  have h := (List.dropWhile_suffix (l := p.reverse) (· ≠ '/')).length_le
  simpa [upToSlash] using h

theorem length_stripSlashes_le (p : Path) : (stripSlashes p).length ≤ p.length := by
  have h := (List.dropWhile_suffix (l := p.reverse) (· = '/')).length_le
  simpa [stripSlashes] using h

theorem length_directory_le (p : Path) : (directory p).length ≤ p.length := by
  simp only [directory]
  split
  · exact length_upToSlash_le p
  · exact Nat.le_trans (length_stripSlashes_le _) (length_upToSlash_le p)

theorem upToSlash_append_name (p : Path) : upToSlash p ++ name p = p := by
  simp [upToSlash, name, ← List.reverse_append, List.takeWhile_append_dropWhile]

/-- Going up makes a path shorter until it stays the same. -/
theorem directory_length_lt {p : Path} (h : directory p ≠ p) :
    (directory p).length < p.length := by
  refine Nat.lt_of_le_of_ne (length_directory_le p) fun heq => h ?_
  have hsplit := congrArg List.length (upToSlash_append_name p)
  rw [List.length_append] at hsplit
  have hup := length_upToSlash_le p
  simp only [directory] at heq ⊢
  split at heq
  · rename_i hall
    rw [if_pos hall]
    have hname : name p = [] := List.eq_nil_of_length_eq_zero (by omega)
    simpa [hname] using upToSlash_append_name p
  · rename_i hall
    rw [if_neg hall]
    have hstrip := length_stripSlashes_le (upToSlash p)
    have hname : name p = [] := List.eq_nil_of_length_eq_zero (by omega)
    have hwhole : upToSlash p = p := by simpa [hname] using upToSlash_append_name p
    rw [hwhole] at heq ⊢
    have hsuffix := List.dropWhile_suffix (l := p.reverse) (· = '/')
    have hsame := hsuffix.eq_of_length (by simpa [stripSlashes] using heq)
    simp [stripSlashes, hsame]

/-- A path and the directories above it, up to the first that lies in itself. -/
def ancestors (p : Path) : List Path :=
  if _h : directory p = p then [p] else p :: ancestors (directory p)
termination_by p.length
decreasing_by exact directory_length_lt ‹_›

end Path

end StorageLoad
