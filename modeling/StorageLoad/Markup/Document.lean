import StorageLoad.Markup.Meaning

/-!
Reading an option document.
-/

namespace StorageLoad.Markup

/-- The text of a file with every line ended by a line feed alone. -/
def withLineFeeds : List Char → List Char
  | '\r' :: '\n' :: cs => '\n' :: withLineFeeds cs
  | '\r' :: cs => '\n' :: withLineFeeds cs
  | c :: cs => c :: withLineFeeds cs
  | [] => []

/-- The characters that are read before the first look at a text, and those of each further
part. -/
def firstPart : Nat := 8192

def nextPart : Nat := 4096

/-- How much of a text is read, in whole parts, where some characters of it are looked at. -/
def readLength (seen : Nat) : Nat :=
  firstPart + (seen - firstPart + nextPart - 1) / nextPart * nextPart

/-- The tokens of a text.  No character may be read that is not allowed. -/
def tokensOf (cs : List Char) : Outcome Lexed :=
  let lexed := Lexed.ofText cs
  let readPart := match lexed.stop with
    | none => cs
    | some stop => cs.take (readLength stop.seen)
  if readPart.all isAllowed then .ok lexed else .error .malformedDocument

/-- The value of a document; a text without a document means nothing. -/
def valueOf (text : String) : Outcome Value := do
  let lexed ← tokensOf (withLineFeeds text.toList)
  match ← Node.ofTokens lexed with
  | some root => Meaning.ofRoot (lexed.tokens.length + 1) root
  | none => return .null

end StorageLoad.Markup
