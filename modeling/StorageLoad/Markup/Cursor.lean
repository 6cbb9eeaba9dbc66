import StorageLoad.Fault

/-!
A place in the text of an option document, and the ways to move on from it.
-/

namespace StorageLoad.Markup

/-- Whether a character may stand in a document at all. -/
def isAllowed (c : Char) : Bool :=
  c = '\t' ∨ c = '\n' ∨ c = '\r' ∨ (0x20 ≤ c.toNat ∧ c.toNat ≤ 0x7E) ∨ c.toNat = 0x85 ∨
    (0xA0 ≤ c.toNat ∧ c.toNat ≤ 0xFFFD) ∨ 0x10000 ≤ c.toNat

/-- The characters that end a line. -/
def isBreak (c : Char) : Bool :=
  c = '\n' ∨ c = '\r' ∨ c.toNat = 0x85 ∨ c.toNat = 0x2028 ∨ c.toNat = 0x2029

/-- A place with or without a character, at which no token goes on: the end, a line break, a space
or a tab. -/
def isGap : Option Char → Bool
  | none => true
  | some c => c = ' ' || c = '\t' || isBreak c

/-- The end of the text or of a line. -/
def isLineEnd : Option Char → Bool
  | none => true
  | some c => isBreak c

/-- The characters of names: ASCII letters, digits, hyphen and underscore. -/
def isNameChar (c : Char) : Bool :=
  c.isAlphanum || c = '-' || c = '_'

/-- What is left of a text, with the number of characters before it, of lines before it, and of
characters before it in its line. -/
structure Cursor where
  rest : List Char
  /-- The number of characters of the whole text. -/
  size : Nat
  index : Nat
  line : Nat
  column : Nat

/-- The mark that may stand at the front of a text; it takes no column. -/
def byteOrderMark : Char := '\uFEFF'

namespace Cursor

/-- The start of a text, behind a byte order mark if there is one. -/
def ofText (cs : List Char) : Cursor :=
  let start : Cursor := { rest := cs, size := cs.length, index := 0, line := 0, column := 0 }
  if cs.head? = some byteOrderMark then { start with rest := cs.drop 1, index := 1 } else start

/-- Passes one character. -/
def advance (c : Cursor) : Cursor :=
  match c.rest with
  | [] => c
  | ch :: rest =>
      if isBreak ch ∧ ¬(ch = '\r' ∧ rest.head? = some '\n') then
        { c with rest, index := c.index + 1, line := c.line + 1, column := 0 }
      else
        { c with
          rest
          index := c.index + 1
          column := if ch = byteOrderMark then c.column else c.column + 1 }

def skip : Nat → Cursor → Cursor
  | 0, c => c
  | n + 1, c => skip n c.advance

end Cursor

/-- Why reading stops, and the number of characters that had been looked at by then. -/
structure Stop where
  cause : Fault
  seen : Nat

/-- A part of reading a document. -/
abbrev Reading (α : Type) := StateT Cursor (Except Stop) α

namespace Reading

def malformed {α : Type} : Reading α :=
  throw ⟨.malformedDocument, 0⟩

/-- The character some places on. -/
def peekAt (n : Nat) : Reading (Option Char) :=
  return (← get).rest[n]?

def peek : Reading (Option Char) :=
  peekAt 0

def skip (n : Nat) : Reading Unit :=
  modify (Cursor.skip n)

def next : Reading Unit :=
  skip 1

/-- Passes all characters of a class from here on. -/
def span (p : Char → Bool) : Reading (List Char) := do
  let word := (← get).rest.takeWhile p
  skip word.length
  return word

/-- Passes a line break, if there is one; most of them count as a line feed. -/
def lineBreak : Reading (List Char) := do
  match (← get).rest with
  | '\r' :: '\n' :: _ => do skip 2; return ['\n']
  | c :: _ =>
      if isBreak c then
        next
        return if c.toNat = 0x2028 ∨ c.toNat = 0x2029 then [c] else ['\n']
      else return []
  | [] => return []

/-- Whether a line that separates documents starts here. -/
def atSeparator : Reading Bool := do
  let cs := (← get).rest
  return (cs.take 3 = "---".toList || cs.take 3 = "...".toList) && isGap cs[3]?

/-- The rest of the line up to its end: nothing but blanks and a comment may stand there. -/
def restOfLine : Reading Unit := do
  let _ ← span (· = ' ')
  if (← peek) = some '#' then
    let _ ← span fun c => !isBreak c
  if isLineEnd (← peek) then
    let _ ← lineBreak
  else malformed

end Reading

end StorageLoad.Markup
