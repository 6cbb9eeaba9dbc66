import StorageLoad.Path
import StorageLoad.Value.Items

/-!
What a storage service can report instead of an answer.
-/

namespace StorageLoad

/-- A change or a read that a host's file tree did not allow. -/
inductive Refusal where
  | create (path : Path)
  | append (path : Path)
  | read (path : Path)
  | delete (path : Path)
  | rename (source target : Path)
  | makeDirectory (path : Path)
  deriving Repr, DecidableEq

/-- Why a host cannot do something with a path. -/
inductive Obstacle where
  | missing
  /-- Something on the way that is no directory. -/
  | notDirectory
  | isDirectory
  /-- Something else stands where a directory was to be made. -/
  | isThere
  /-- A name or a whole path of too many bytes. -/
  | tooLong
  /-- A character that no path can hold. -/
  | unusable
  deriving Repr, DecidableEq

inductive StoreFault where
  /-- Nothing is stored at the path, or nothing of the sort that was asked for. -/
  | notFound (path : Path)
  | isDirectory (path : Path)
  | isFile (path : Path)
  | notAbsolute (path : Path)
  /-- An entry that vanished while its own subtree was being changed. -/
  | entryGone (path : Path)
  | refused (what : Refusal)
  /-- The awaited replication factor was not reported in time. -/
  | timedOut (replicas : Int) (path : Path)
  /-- A length below `-1` where bytes are read from a host file. -/
  | negativeLength
  /-- A length beyond what a host can count. -/
  | lengthTooLarge
  /-- A length beyond what a host has room for. -/
  | noMemory
  /-- A length that is no integer. -/
  | badLength (cause : ShapeFault)
  /-- A path with a character that no path can hold. -/
  | unusablePath
  /-- The service does not offer the call. -/
  | unimplemented
  deriving Repr, DecidableEq

namespace Refusal

def message : Refusal → String
  | create path => "Unable to create " ++ path.toText
  | append path => "Unable to append to " ++ path.toText
  | read path => "Unable to read " ++ path.toText
  | delete path => "Unable to delete " ++ path.toText
  | rename source target => "Unable to rename " ++ source.toText ++ " to " ++ target.toText
  | makeDirectory path => "Unable to create directory " ++ path.toText

end Refusal

namespace Obstacle

/-- The text about a path that is given quoted. -/
def message (quoted : String) : Obstacle → String
  | missing => "[Errno 2] No such file or directory: " ++ quoted
  | notDirectory => "[Errno 20] Not a directory: " ++ quoted
  | isDirectory => "[Errno 21] Is a directory: " ++ quoted
  | isThere => "[Errno 17] File exists: " ++ quoted
  | tooLong => "[Errno 36] File name too long: " ++ quoted
  | unusable => "embedded null byte"

end Obstacle

namespace StoreFault

def message : StoreFault → String
  | notFound path => "No such file or directory: " ++ path.toText
  | isDirectory path => "Unable to create " ++ path.toText ++ ": is a directory"
  | isFile path => "Unable to create directory: " ++ path.toText ++ " is a file"
  | notAbsolute path => "Path must be absolute: " ++ path.toText
  | entryGone path => Text.Quoted.encode path.toText
  | refused what => what.message
  | timedOut replicas path =>
      s!"Timed out waiting for {replicas} replicas on path " ++ path.toText
  | negativeLength => "read length must be non-negative or -1"
  | lengthTooLarge => "the length is too large"
  | noMemory => ""
  | badLength cause => cause.message
  | unusablePath => Obstacle.message "" .unusable
  | unimplemented => ""

end StoreFault

end StorageLoad
