import StorageLoad.Text.Half
import StorageLoad.Text.Hex
import StorageLoad.Text.Printable

/-!
Quoted text: single quotes, unless the text holds one and no double quote; control characters and
whatever else is not printable by their code points.
-/

namespace StorageLoad.Text.Quoted

/-- A character inside quotes of the given kind. -/
def escape (quote c : Char) : List Char :=
  if c = quote ∨ c = '\\' then ['\\', c]
  else if c = '\n' then ['\\', 'n']
  else if c = '\r' then ['\\', 'r']
  else if c = '\t' then ['\\', 't']
  else if isPrintable c then [c]
  else if codeOf c < 0x100 then '\\' :: 'x' :: hex 2 (codeOf c)
  else if codeOf c < 0x10000 then '\\' :: 'u' :: hex 4 (codeOf c)
  else '\\' :: 'U' :: hex 8 (codeOf c)

def quoteFor (cs : List Char) : Char :=
  if cs.contains '\'' && !cs.contains '"' then '"' else '\''

/-- The text in quotes. -/
def encode (s : String) : String :=
  let quote := quoteFor s.toList
  String.ofList (quote :: s.toList.flatMap (escape quote) ++ [quote])

/-- The first characters of the quoted text, at most 200 of them. -/
def encodeShort (s : String) : String :=
  String.ofList ((encode s).toList.take 200)

end StorageLoad.Text.Quoted
