import StorageLoad.Segment
import StorageLoad.Table
import StorageLoad.Text.Half

/-!
The file tree of a host, as far as a storage service uses it: every directory and file under the
list of names that leads to it.  Path texts are walked name by name; `.`, `..` and an empty name
need a directory to stand in.  A host keeps names as bytes, so that two texts can stand for one
name (`canonical`).  Names and whole paths have at most so many bytes.
-/

namespace StorageLoad

/-- One name of a path. -/
abbrev Name := List Char

namespace Host

inductive Node where
  | file (data : Bytes)
  | directory
  deriving Repr, DecidableEq

/-- The place of a node: the names that lead to it from the top. -/
abbrev Place := List Name

/-- The nodes of a tree. -/
abbrev Tree := Table Place Node

def Node.isDirectory : Node → Bool
  | directory => true
  | file _ => false

def current : Name := ['.']

def parent : Name := ['.', '.']

/-- Whether a character stands for a single byte of a name: such halves are what a host tells of
bytes that are none of a character. -/
def isStray (c : Char) : Bool :=
  Text.isHalf c && (0xDC80 ≤ Text.codeOf c && Text.codeOf c ≤ 0xDCFF)

/-- The byte that a stray half stands for. -/
def strayByte (c : Char) : UInt8 :=
  UInt8.ofNat (Text.codeOf c - 0xDC00)

/-- The character whose bytes the stray halves at the front of a text stand for.  Characters in
the place of kept halves are none. -/
def joined? (cs : List Char) : Option Char :=
  let bytes := ByteArray.mk ((cs.takeWhile isStray).map strayByte).toArray
  (bytes.utf8DecodeChar? 0).filter (!Text.isHalf ·)

/-- The text with its stray halves joined to characters where they can be, after so many that have
been joined already. -/
def rejoin : Nat → List Char → List Char
  | _, [] => []
  | skip + 1, _ :: cs => rejoin skip cs
  | 0, c :: cs =>
      match joined? (c :: cs) with
      | some d => d :: rejoin (d.utf8Size - 1) cs
      | none => c :: rejoin 0 cs

/-- The name that a host tells when it was given a name. -/
def canonical (name : Name) : Name :=
  rejoin 0 name

/-- The names of a path text, as the host tells them. -/
def namesOf (text : String) : List Name :=
  (Text.splitAll '/' text.toList).map canonical

/-- Where the names of a path text are walked from: the top if it begins with a slash, or else
here. -/
def base (here : Place) (text : String) : Place :=
  if text.toList.head? = some '/' then [] else here

/-- The place that a path text names if all on the way are directories. -/
def place (here : Place) (text : String) : Place :=
  (namesOf text).foldl (fun p name =>
    if name = [] ∨ name = current then p
    else if name = parent then p.dropLast
    else p ++ [name]) (base here text)

/-- The most bytes of a name. -/
def nameLimit : Nat := 255

/-- The most bytes of a path text, counted from the top. -/
def pathLimit : Nat := 4095

/-- The bytes of a character on a host; the halves it has a place for stand for one byte each. -/
def byteCount (c : Char) : Nat :=
  if Text.isHalf c then 1 else c.utf8Size

def nameSize (name : Name) : Nat :=
  (name.map byteCount).foldr (· + ·) 0

/-- Whether a host can hold a character in a name. -/
def isUsable (c : Char) : Bool :=
  c ≠ '\x00' && (!Text.isHalf c || isStray c)

/-- The bytes of the path text of a place, each name with its slash. -/
def textSize (place : Place) : Nat :=
  (place.map fun name => nameSize name + 1).foldr (· + ·) 0

/-- What is wrong with a path text whatever the tree holds. -/
def checkText (base : Place) (names : List Name) : Except Obstacle Unit :=
  if !names.all (·.all isUsable) then .error .unusable
  else if pathLimit < textSize (base ++ names) then .error .tooLong
  else .ok ()

/-- Whether a name stands for the directory it is looked up in or the one above. -/
def isDots (name : Name) : Bool :=
  name = current || name = parent

end Host

namespace Host.Tree

/-- A tree that holds its top directory alone. -/
def bare : Tree := ⟨[([], .directory)]⟩

def isDirectory (t : Tree) (p : Place) : Bool :=
  (t.get? p).any (·.isDirectory)

/-- Walks names from a place.  Every step needs a directory to stand in; the place it leads to
need not exist. -/
def walk (t : Tree) : Place → List Name → Except Obstacle Place
  | here, [] => .ok here
  | here, name :: names =>
      match t.get? here with
      | none => .error .missing
      | some (.file _) => .error .notDirectory
      | some .directory =>
          if name = [] ∨ name = current then walk t here names
          else if name = parent then walk t here.dropLast names
          else if nameLimit < nameSize name then .error .tooLong
          else walk t (here ++ [name]) names

/-- The place that names lead to. -/
def locate (t : Tree) (base : Place) (names : List Name) : Except Obstacle Place := do
  checkText base names
  t.walk base names

/-- What the names lead to. -/
def find? (t : Tree) (base : Place) (names : List Name) : Option Node :=
  (t.locate base names).toOption.bind t.get?

def isPresent (t : Tree) (base : Place) (names : List Name) : Bool :=
  (t.find? base names).isSome

/-- The place of a file to be written: the last name is a proper one, and no directory has it. -/
def fileTarget (t : Tree) (base : Place) (names : List Name) : Except Obstacle Place := do
  checkText base names
  if (names.getLast?).all fun name => name = [] || isDots name then
    let _ ← t.walk base ((names.filter (· ≠ [])).dropLast ++ [current])
    throw .isDirectory
  else
    let place ← t.walk base names
    if t.isDirectory place then throw .isDirectory else return place

/-- The place of what is to be moved or removed by a text: something is there, it is not the top,
and its last name is a proper one, which slashes may follow. -/
def entryPlace? (t : Tree) (base : Place) (names : List Name) : Option Place :=
  if ((names.filter (· ≠ [])).getLast?).any isDots then none
  else (t.locate base names).toOption.filter fun place => place ≠ [] && t.contains place

/-- Makes one directory.  It may be there already. -/
def makeDirectory (t : Tree) (base : Place) (names : List Name) : Except Obstacle Tree := do
  let place ← t.locate base names
  match t.get? place with
  | some .directory => return t
  | some (.file _) => throw .isThere
  | none => return t.insert place .directory

/-- Makes a directory and those above it that are missing, the topmost first; the names are given
in reverse.  What was made before a failure stays. -/
def makeBelow (t : Tree) (base : Place) : List Name → Except Obstacle Unit × Tree
  | [] => finish t (t.makeDirectory base [])
  | name :: above =>
      let whole (t : Tree) := finish t (t.makeDirectory base (above.reverse ++ [name]))
      if t.isPresent base above.reverse then whole t
      else
        match makeBelow t base above with
        | (.error cause, t) => (.error cause, t)
        | (.ok (), t) => if name = current then (.ok (), t) else whole t
where
  finish (t : Tree) : Except Obstacle Tree → Except Obstacle Unit × Tree
    | .ok t => (.ok (), t)
    | .error cause => (.error cause, t)

/-- Makes a directory and those above it that are missing, from the top on if that is where the
place is missing from which the names are walked. -/
def makeDirectories (t : Tree) (base : Place) (names : List Name) : Except Obstacle Unit × Tree :=
  if t.contains base then t.makeBelow base names
  else
    match t.makeBelow [] base.reverse with
    | (.error cause, t) => (.error cause, t)
    | (.ok (), t) => t.makeBelow base names

/-- The tree without what is at `p` or under it. -/
def erase (t : Tree) (p : Place) : Tree :=
  ⟨t.entries.filter fun e => !p.isPrefixOf e.1⟩

/-- The tree without what is under `p`. -/
def clear (t : Tree) (p : Place) : Tree :=
  ⟨t.entries.filter fun e => e.1 = p || !p.isPrefixOf e.1⟩

/-- Moves a node with everything under it to a place outside of it. -/
def move (t : Tree) (source target : Place) : Tree :=
  (t.entries.filter fun e => source.isPrefixOf e.1).foldl
    (fun t e => t.insert (target ++ e.1.drop source.length) e.2) (t.erase source)

/-- The names directly below a place, ascending. -/
def namesBelow (t : Tree) (p : Place) : List Name :=
  t.entries.filterMap fun e =>
    match e.1.getLast? with
    | some name => if e.1.dropLast = p then some name else none
    | none => none

end Host.Tree

end StorageLoad
