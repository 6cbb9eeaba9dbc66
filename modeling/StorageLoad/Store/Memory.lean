import StorageLoad.Store.Request
import StorageLoad.Table

/-!
A storage service that keeps everything in one table of paths.  Directories are entries like
files, so that the tree is in the texts of the paths only.  A call either ends, with an answer or
a fault and the service as it is then, or it does not end at all.
-/

namespace StorageLoad

namespace Memory

/-- What is stored at a path. -/
structure Entry where
  isDirectory : Bool
  data : Bytes
  /-- The factor that is reported. -/
  replication : Value
  /-- The factor that was asked for. -/
  target : Value
  /-- The polls until the factor that was asked for is reported. -/
  pendingPolls : Int
  blockSize : Value

def Entry.directory : Entry :=
  { isDirectory := true, data := [], replication := .int 0, target := .int 0, pendingPolls := 0,
    blockSize := .int 0 }

def Entry.file (data : Bytes) (replication blockSize : Value) : Entry :=
  { isDirectory := false, data, replication, target := replication, pendingPolls := 0, blockSize }

end Memory

/-- The stored entries, and the number of polls for which a changed replication factor is not yet
reported. -/
structure Memory where
  lag : Int
  entries : Table Path Memory.Entry

namespace Memory

/-- A service that holds the root directory alone. -/
def fresh (lag : Int) : Memory :=
  { lag, entries := ⟨[(['/'], Entry.directory)]⟩ }

def get? (m : Memory) (p : Path) : Option Entry :=
  m.entries.get? p

def contains (m : Memory) (p : Path) : Bool :=
  m.entries.contains p

def put (m : Memory) (p : Path) (e : Entry) : Memory :=
  { m with entries := m.entries.insert p e }

def erase (m : Memory) (p : Path) : Memory :=
  { m with entries := m.entries.erase p }

/-- The stored paths, ascending. -/
def paths (m : Memory) : List Path :=
  m.entries.keys

/-- The file at a path. -/
def file (m : Memory) (p : Path) : Except StoreFault Entry :=
  match m.get? p with
  | some e => if e.isDirectory then .error (.notFound p) else .ok e
  | none => .error (.notFound p)

/-- What every path below `p` starts with. -/
def below (p : Path) : Path :=
  p.stripSlashes ++ ['/']

/-- The stored paths below `p`, ascending.  They stand together, so the scan starts after their
common start and stops at the first path without it. -/
def children (m : Memory) (p : Path) : List Path :=
  (m.entries.scanAfter (below p) ((below p).isPrefixOf ·)).map (·.1)

/-- Creates a directory and those above it that are missing.  The walk upwards ends at the first
stored path; it does not end if there is none. -/
def makeDirectories (m : Memory) (p : Path) : Option (Except StoreFault Memory) :=
  if !p.isAbsolute then some (.error (.notAbsolute p))
  else
    match p.ancestors.find? m.contains with
    | none => none
    | some base =>
        match m.get? base with
        | some e =>
            if e.isDirectory then
              let missing := p.ancestors.takeWhile fun a => !m.contains a
              some (.ok (missing.foldl (fun m a => m.put a Entry.directory) m))
            else some (.error (.isFile base))
        | none => none

/-- The result of a call that ends. -/
abbrev Result := Except StoreFault Reply × Memory

def create (m : Memory) (p : Path) (data : Bytes) (replication blockSize : Value) :
    Option Result :=
  if (m.get? p).any (·.isDirectory) then some (.error (.isDirectory p), m)
  else
    match m.makeDirectories p.directory with
    | none => none
    | some (.error fault) => some (.error fault, m)
    | some (.ok m) =>
        some (.ok (.int data.length), m.put p (Entry.file data replication blockSize))

def append (m : Memory) (p : Path) (data : Bytes) : Result :=
  match m.file p with
  | .error fault => (.error fault, m)
  | .ok e => (.ok (.int data.length), m.put p { e with data := e.data ++ data })

def read (m : Memory) (p : Path) (length : Value) : Result :=
  match m.file p with
  | .error fault => (.error fault, m)
  | .ok e =>
      match length, length.whole? with
      | .null, _ => (.ok (.bytes e.data), m)
      | _, some n => (.ok (.bytes (bytesBefore n e.data)), m)
      | v, none => (.error (.badLength (.notIndex v.sort)), m)

def delete (m : Memory) (p : Path) : Result :=
  if !m.contains p then (.error (.notFound p), m)
  else
    let rest := (m.children p).foldl erase m
    if rest.contains p then (.ok .yes, rest.erase p) else (.error (.entryGone p), rest)

/-- Moves an entry to another path, where it takes the place of what is there. -/
def move (m : Memory) (source target : Path) : Memory :=
  match m.get? source with
  | none => m
  | some e => (m.erase source).put target e

def rename (m : Memory) (source target : Path) : Option Result :=
  if !m.contains source then some (.error (.notFound source), m)
  else if m.contains target then some (.ok .no, m)
  else
    match m.makeDirectories target.directory with
    | none => none
    | some (.error fault) => some (.error fault, m)
    | some (.ok m) =>
        let moved := (m.children source).foldl
          (fun m child => m.move child (target ++ child.drop source.length)) m
        if moved.contains source then some (.ok .yes, moved.move source target)
        else some (.error (.entryGone source), moved)

def setReplication (m : Memory) (p : Path) (factor : Value) : Result :=
  match m.file p with
  | .error fault => (.error fault, m)
  | .ok e =>
      let replication := if m.lag = 0 then factor else e.replication
      (.ok .yes, m.put p { e with target := factor, pendingPolls := m.lag, replication })

/-- What an entry is after its factor was asked for once more. -/
def Entry.polled (e : Entry) : Entry :=
  if 0 < e.pendingPolls then
    { e with
      pendingPolls := e.pendingPolls - 1
      replication := if e.pendingPolls = 1 then e.target else e.replication }
  else e

def getReplication (m : Memory) (p : Path) : Result :=
  match m.file p with
  | .error fault => (.error fault, m)
  | .ok e => (.ok (.value e.polled.replication), m.put p e.polled)

/-- The names of the stored paths that lie directly below `p`. -/
def namesBelow (m : Memory) (p : Path) : List Path :=
  ((m.children p).map (·.drop (below p).length)).filter (!·.contains '/')

def listdir (m : Memory) (p : Path) : Result :=
  if (m.get? p).any (·.isDirectory) then
    (.ok (.value (.list ((m.namesBelow p).map fun name => .text name.toText))), m)
  else (.error (.notFound p), m)

def mkdirs (m : Memory) (p : Path) : Option Result :=
  match m.makeDirectories p with
  | none => none
  | some (.error fault) => some (.error fault, m)
  | some (.ok m) => some (.ok .yes, m)

/-- The answer to a call, with the service afterwards; `none` for a call that does not end. -/
def answer (m : Memory) : Request → Option Result
  | .create path data replication blockSize => m.create path data replication blockSize
  | .append path data => some (m.append path data)
  | .read path length => some (m.read path length)
  | .delete path => some (m.delete path)
  | .rename source target => m.rename source target
  | .setReplication path factor => some (m.setReplication path factor)
  | .getReplication path => some (m.getReplication path)
  | .listdir path => some (m.listdir path)
  | .mkdirs path => m.mkdirs path
  | .isStored path => some (.ok (.value (.bool (m.contains path))), m)

end Memory

end StorageLoad
