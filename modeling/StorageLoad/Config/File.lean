import StorageLoad.Config.Options
import StorageLoad.Markup.Document

/-!
Options from a file.
-/

namespace StorageLoad.Options

/-- The options in a file with a name and a content; a file without content does not exist.  An
empty file holds no options, any other has to hold a mapping. -/
def ofFile (name : String) (content : Option String) : Outcome Options := do
  match content with
  | none => throw .noSuchFile
  | some text =>
      match ← Markup.valueOf text with
      | .null => return []
      | .map entries => return entries
      | _ => throw (.option (.notMapping name))

end StorageLoad.Options
