import StorageLoad.Store.Host
import StorageLoad.Store.Request

/-!
A storage service on a host's file tree.  A host keeps no replicas, so replication factors are
only remembered, under the path texts they were given for.
-/

namespace StorageLoad

/-- The host's tree, the place in it that stands for `/`, and the remembered factors. -/
structure Local where
  tree : Host.Tree
  root : Host.Place
  factors : Table Path Value

namespace Local

open Host

/-- The names of a path, as the host tells them; slashes in front do not count, an empty last name
stands for a slash at the end. -/
def names (p : Path) : List Name :=
  (Text.splitAll '/' (p.dropWhile (· = '/'))).map canonical

/-- The names of the directory a path lies in, in reverse. -/
def directoryNames (p : Path) : List Name :=
  ((names p).dropLast.filter (· ≠ [])).reverse

def find? (s : Local) (p : Path) : Option Node :=
  s.tree.find? s.root (names p)

def isStored (s : Local) (p : Path) : Bool :=
  (s.find? p).isSome

/-- The result of a call. -/
abbrev Result := Except StoreFault Reply × Local

def refuse (s : Local) (what : Refusal) : Result :=
  (.error (.refused what), s)

/-- What comes of a call that the host does not allow; a path it cannot hold is not even
refused. -/
def obstruct (s : Local) (what : Refusal) (cause : Obstacle) : Result :=
  if cause = .unusable then (.error .unusablePath, s) else s.refuse what

def create (s : Local) (p : Path) (data : Bytes) (replication : Value) : Result :=
  match s.tree.makeDirectories s.root (directoryNames p) with
  | (.error cause, tree) => { s with tree }.obstruct (.create p) cause
  | (.ok (), tree) =>
      let s := { s with tree }
      match s.tree.fileTarget s.root (names p) with
      | .error cause => s.obstruct (.create p) cause
      | .ok place =>
          (.ok (.int data.length),
            { s with
              tree := s.tree.insert place (.file data)
              factors := s.factors.insert p replication })

def append (s : Local) (p : Path) (data : Bytes) : Result :=
  match s.find? p, s.tree.fileTarget s.root (names p) with
  | none, _ => (.error (.notFound p), s)
  | some (.file old), .ok place =>
      (.ok (.int data.length), { s with tree := s.tree.insert place (.file (old ++ data)) })
  | _, _ => s.refuse (.append p)

/-- The most bytes that a host can count, with what it needs besides them. -/
def countLimit : Int := 2 ^ 63

def overhead : Int := 33

/-- More bytes than a host has addresses for. -/
def roomLimit : Int := 2 ^ 47

/-- The first bytes of a file; `-1` stands for all of them. -/
def firstBytes (data : Bytes) (length : Value) : Except StoreFault Bytes :=
  match length, length.whole? with
  | .null, _ => .ok data
  | v, none => .error (.badLength (.notIndex v.sort))
  | _, some n =>
      if n < -countLimit ∨ countLimit - overhead ≤ n then .error .lengthTooLarge
      else if n < -1 then .error .negativeLength
      else if n = -1 then .ok data
      else if roomLimit ≤ n then .error .noMemory
      else .ok (data.take n.toNat)

def read (s : Local) (p : Path) (length : Value) : Result :=
  match s.find? p with
  | none => (.error (.notFound p), s)
  | some .directory => s.refuse (.read p)
  | some (.file data) => ((firstBytes data length).map .bytes, s)

/-- Removes a file, or a directory with all that is in it.  A directory is emptied first, and then
removed by its text, which may not lead to it any more. -/
def delete (s : Local) (p : Path) : Result :=
  let forget (s : Local) (place : Place) : Result :=
    (.ok .yes, { s with tree := s.tree.erase place, factors := s.factors.erase p })
  match s.tree.locate s.root (names p) with
  | .error _ => (.error (.notFound p), s)
  | .ok place =>
      match s.tree.get? place with
      | none => (.error (.notFound p), s)
      | some (.file _) => forget s place
      | some .directory =>
          let s := { s with tree := s.tree.clear place }
          match s.tree.entryPlace? s.root (names p) with
          | some place => forget s place
          | none => s.refuse (.delete p)

/-- Remembers the factor of a moved path under its new text. -/
def carryFactor (factors : Table Path Value) (source target : Path) : Table Path Value :=
  match factors.get? source with
  | some factor => (factors.erase source).insert target factor
  | none => factors

/-- The place a directory is renamed to: a slash at the end of the text may follow its name. -/
def renameTarget (s : Local) (p : Path) : Except Obstacle Place :=
  let proper := (names p).filter (· ≠ [])
  match proper.getLast? with
  | some name => if isDots name then .error .isThere else s.tree.locate s.root proper
  | none => .error .isThere

/-- Whether the host moves the node at one place to another: never into itself, a directory only
over an empty one, and a file only to a text without a slash at its end. -/
def canMove (s : Local) (source target : Place) (slashed : Bool) : Bool :=
  source ≠ [] && !source.isPrefixOf target &&
    (if s.tree.isDirectory source then
      !s.tree.contains target || (s.tree.isDirectory target && (s.tree.namesBelow target).isEmpty)
    else !slashed && !s.tree.isDirectory target)

def rename (s : Local) (source target : Path) : Result :=
  let what := Refusal.rename source target
  if !s.isStored source then (.error (.notFound source), s)
  else if s.isStored target then (.ok .no, s)
  else
    match s.tree.makeDirectories s.root (directoryNames target) with
    | (.error cause, tree) => { s with tree }.obstruct what cause
    | (.ok (), tree) =>
        let s := { s with tree }
        match s.tree.entryPlace? s.root (names source), s.renameTarget target with
        | _, .error cause => s.obstruct what cause
        | none, _ => s.refuse what
        | some start, .ok goal =>
            if s.canMove start goal ((names target).getLast? = some []) then
              (.ok .yes,
                { s with
                  tree := s.tree.move start goal
                  factors := carryFactor s.factors source target })
            else s.refuse what

def setReplication (s : Local) (p : Path) (factor : Value) : Result :=
  if s.isStored p then (.ok .yes, { s with factors := s.factors.insert p factor })
  else (.error (.notFound p), s)

def getReplication (s : Local) (p : Path) : Result :=
  if s.isStored p then (.ok (.value ((s.factors.get? p).getD (.int 1))), s)
  else (.error (.notFound p), s)

def listdir (s : Local) (p : Path) : Result :=
  match s.tree.locate s.root (names p) with
  | .error _ => (.error (.notFound p), s)
  | .ok place =>
      if s.tree.isDirectory place then
        let texts := (s.tree.namesBelow place).map fun name => Value.text (String.ofList name)
        (.ok (.value (.list texts)), s)
      else (.error (.notFound p), s)

def mkdirs (s : Local) (p : Path) : Result :=
  match s.tree.makeDirectories s.root ((names p).filter (· ≠ [])).reverse with
  | (.ok (), tree) => (.ok .yes, { s with tree })
  | (.error cause, tree) => { s with tree }.obstruct (.makeDirectory p) cause

/-- The answer to a call, with the service afterwards. -/
def answer (s : Local) : Request → Result
  | .create path data replication _ => s.create path data replication
  | .append path data => s.append path data
  | .read path length => s.read path length
  | .delete path => s.delete path
  | .rename source target => s.rename source target
  | .setReplication path factor => s.setReplication path factor
  | .getReplication path => s.getReplication path
  | .listdir path => s.listdir path
  | .mkdirs path => s.mkdirs path
  | .isStored path => (.ok (.value (.bool (s.isStored path))), s)

/-- Everything below the root, each under its path from there, in the order of the paths. -/
def snapshot (s : Local) : List (Path × Node) :=
  let below := s.tree.entries.filter fun e => s.root.isPrefixOf e.1 && e.1 ≠ s.root
  let named := below.map fun (place, node) =>
    ((place.drop s.root.length).flatMap fun name => '/' :: name, node)
  named.mergeSort fun a b => !decide (b.1 < a.1)

/-- The service after its root directory has been made, with those above it that are missing. -/
def ofRoot (tree : Host.Tree) (root : Host.Place) : Except Obstacle Local :=
  match tree.makeDirectories [] root.reverse with
  | (.ok (), tree) => .ok { tree, root, factors := .empty }
  | (.error cause, _) => .error cause

/-- A service on a host that holds nothing besides. -/
def fresh (root : Host.Place) : Except Obstacle Local :=
  ofRoot Tree.bare root

end Local

end StorageLoad
