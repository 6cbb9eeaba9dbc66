import StorageLoad.Markup.Cursor

/-!
The texts of a document: plain, quoted, and in blocks.  Lines of plain and quoted texts are joined
by spaces, empty lines between them stay as line breaks.
-/

namespace StorageLoad.Markup

open Reading

/-- A bound on repetitions that each read at least one character. -/
def remaining : Reading Nat :=
  return (← get).size + 1

/-- A text whose last character stands first, with a piece added at its end. -/
def adding (piece text : List Char) : List Char :=
  piece.reverse ++ text

/-! ## Plain texts -/

/-- The length of the next word of a plain text.  In flow, brackets and commas end it too. -/
def wordLength (flow : Bool) : List Char → Nat
  | [] => 0
  | c :: cs =>
      let ends := isGap (some c) ||
        (c =
          ':' && (isGap cs.head? || (flow && cs.head?.any (",[]\x7b\x7d".toList.contains ·)))) ||
        (flow && ",?[]\x7b\x7d".toList.contains c)
      if ends then 0 else wordLength flow cs + 1

/-- Line breaks and spaces between the lines of a plain text, up to a line that separates
documents.  The flag says that there was no such line. -/
def plainBreaks : Nat → List Char → Reading (Bool × List Char)
  | 0, breaks => return (true, breaks)
  | fuel + 1, breaks => do
      match ← peek with
      | some c =>
          if c = ' ' then
            next
            plainBreaks fuel breaks
          else if isBreak c then
            let breaks := breaks ++ (← lineBreak)
            if ← atSeparator then return (false, breaks) else plainBreaks fuel breaks
          else return (true, breaks)
      | none => return (true, breaks)

/-- What joins two lines: one line feed counts as a space unless empty lines follow. -/
def joint (lineBreak breaks : List Char) : List Char :=
  if lineBreak ≠ ['\n'] then lineBreak ++ breaks
  else if breaks.isEmpty then [' ']
  else breaks

/-- What stands between two words of a plain text, nothing if the text is over; and whether a line
was ended. -/
def plainSpaces : Reading (List Char × Bool) := do
  let blanks ← span (· = ' ')
  let ended ← lineBreak
  if ended.isEmpty then return (blanks, false)
  else if ← atSeparator then return ([], true)
  else
    let (goesOn, breaks) ← plainBreaks (← remaining) []
    return (if goesOn then joint ended breaks else [], true)

/-- The words of a plain text whose lines are indented by at least `indent`, added to the text so
far, whose last character stands first; and whether the end of a line follows. -/
def plainWords (flow : Bool) (indent : Int) :
    Nat → List Char → List Char → Bool → Reading (List Char × Bool)
  | 0, text, _, ended => return (text, ended)
  | fuel + 1, text, spaces, ended => do
      let cs := (← get).rest
      let length := if cs.head? = some '#' then 0 else wordLength flow cs
      if length = 0 then return (text, ended)
      else
        skip length
        let text := adding (cs.take length) (adding spaces text)
        let (spaces, ended) ← plainSpaces
        let outside := !flow && decide (((← get).column : Int) < indent)
        if spaces.isEmpty || (← peek) = some '#' || outside then return (text, ended)
        else plainWords flow indent fuel text spaces ended

/-- A plain text, and whether the end of a line follows. -/
def plain (flow : Bool) (indent : Int) : Reading (List Char × Bool) := do
  let (text, ended) ← plainWords flow indent (← remaining) [] [] false
  return (text.reverse, ended)

/-! ## Quoted texts -/

/-- The characters that stand for others after a backslash. -/
def escapes : List (Char × Char) :=
  [('0', '\x00'), ('a', '\x07'), ('b', '\x08'), ('t', '\t'), ('\t', '\t'), ('n', '\n'),
    ('v', '\x0b'), ('f', '\x0c'), ('r', '\r'), ('e', '\x1b'), (' ', ' '), ('"', '"'),
    ('\\', '\\'), ('/', '/'), ('N', '\u0085'), ('_', '\u00a0'), ('L', '\u2028'), ('P', '\u2029')]

/-- The letters that introduce a code point, with the number of its digits. -/
def codes : List (Char × Nat) :=
  [('x', 2), ('u', 4), ('U', 8)]

/-- The code point that the hexadecimal digits spell which come next. -/
def codePoint (digits : List Char) : Reading Nat := do
  let seen := (← get).index + digits.length
  match Text.hexNumber? digits with
  | none => malformed
  | some code =>
      if 0x7FFFFFFF < code then throw ⟨.reported .overflow "code point too large", seen⟩
      else if 0x10FFFF <
        code then throw ⟨.reported .value "chr() arg not in range(0x110000)", seen⟩
      else return code

/-- Line breaks inside quotes, with the blanks around them. -/
def quotedBreaks : Nat → List Char → Reading (List Char)
  | 0, breaks => return breaks
  | fuel + 1, breaks => do
      if ← atSeparator then malformed
      else
        let _ ← span fun c => c = ' ' || c = '\t'
        let ended ← lineBreak
        if ended.isEmpty then return breaks else quotedBreaks fuel (breaks ++ ended)

/-- What a backslash and the characters after it stand for. -/
def escape : Reading (List Char) := do
  next
  match ← peek with
  | none => malformed
  | some c =>
      match escapes.lookup c, codes.lookup c with
      | some meant, _ => do next; return [meant]
      | none, some length => do
          next
          let digits := (← get).rest.take length
          if digits.length < length then malformed
          else
            let code ← codePoint digits
            skip length
            return [Text.ofCode code]
      | none, none =>
          if isBreak c then
            let _ ← lineBreak
            quotedBreaks (← remaining) []
          else malformed

/-- The blanks between the words inside quotes; the end of the text may not come there. -/
def quotedSpaces : Reading (List Char) := do
  let blanks ← span fun c => c = ' ' || c = '\t'
  match ← peek with
  | none => malformed
  | some _ =>
      let ended ← lineBreak
      if ended.isEmpty then return blanks
      else return joint ended (← quotedBreaks (← remaining) [])

/-- The text up to the closing quote, added to the text so far; the last character stands
first. -/
def quotedRest (quote : Char) : Nat → List Char → Reading (List Char)
  | 0, _ => malformed
  | fuel + 1, text => do
      let isPlain c := !(c = '\'' || c = '"' || c = '\\' || isGap (some c))
      let text := adding (← span isPlain) text
      match ← peek with
      | none => malformed
      | some c =>
          if quote = '\'' ∧ c = '\'' ∧ (← peekAt 1) = some '\'' then
            skip 2
            quotedRest quote fuel ('\'' :: text)
          else if c = quote then
            next
            return text
          else if quote = '"' ∧ c = '\\' then
            quotedRest quote fuel (adding (← escape) text)
          else if isGap (some c) then
            quotedRest quote fuel (adding (← quotedSpaces) text)
          else
            next
            quotedRest quote fuel (c :: text)

/-- A text in quotes. -/
def quoted (quote : Char) : Reading (List Char) := do
  next
  return (← quotedRest quote (← remaining) []).reverse

/-! ## Block texts -/

/-- Which line breaks at the end of a block belong to it. -/
inductive Chomping where
  /-- None. -/
  | strip
  /-- That of the last line. -/
  | clip
  /-- All of them. -/
  | keep
  deriving DecidableEq

def chomping? : Option Char → Option Chomping
  | some '+' => some .keep
  | some '-' => some .strip
  | _ => none

/-- An indentation given by a digit other than zero. -/
def indentation : Reading (Option Nat) := do
  match ← peek with
  | some c =>
      if c = '0' then malformed
      else if c.isDigit then
        next
        return some (c.toNat - '0'.toNat)
      else return none
  | none => return none

/-- The marks after the sign of a block, in either order. -/
def blockMarks : Reading (Chomping × Option Nat) := do
  match chomping? (← peek) with
  | some chomping =>
      next
      return (chomping, ← indentation)
  | none =>
      match ← indentation with
      | none => return (.clip, none)
      | some width =>
          match chomping? (← peek) with
          | some chomping =>
              next
              return (chomping, some width)
          | none => return (.clip, some width)

/-- The empty lines before the first line of a block, and the deepest indentation among them and
it. -/
def blockStart : Nat → List Char → Nat → Reading (List Char × Nat)
  | 0, breaks, width => return (breaks, width)
  | fuel + 1, breaks, width => do
      if (← peek) = some ' ' then
        next
        blockStart fuel breaks (max width (← get).column)
      else
        let ended ← lineBreak
        if ended.isEmpty then return (breaks, width) else blockStart fuel (breaks ++ ended) width

/-- Passes spaces up to a column. -/
def toColumn (column : Nat) : Nat → Reading Unit
  | 0 => return
  | fuel + 1 => do
      if (← get).column < column ∧ (← peek) = some ' ' then
        next
        toColumn column fuel

/-- The empty lines before the next line of a block. -/
def blockBreaks (column : Nat) : Nat → List Char → Reading (List Char)
  | 0, breaks => return breaks
  | fuel + 1, breaks => do
      toColumn column column
      let ended ← lineBreak
      if ended.isEmpty then return breaks else blockBreaks column fuel (breaks ++ ended)

/-- Whether the block goes on here. -/
def inBlock (column : Nat) : Reading Bool := do
  return (← get).column = column && (← peek).isSome

/-- The lines of a block: its text, the last character first, the last line break, and the breaks
after that. -/
def blockLines (folded : Bool) (column : Nat) :
    Nat → List Char → List Char → Reading (List Char × List Char × List Char)
  | 0, text, breaks => return (text, [], breaks)
  | fuel + 1, text, breaks => do
      let isBlank (c : Option Char) : Bool := c = some ' ' || c = some '\t'
      let leading := isBlank (← peek)
      let line ← span fun c => !isBreak c
      let text := adding line (adding breaks text)
      let ended ← lineBreak
      let breaks ← blockBreaks column (← remaining) []
      if ← inBlock column then
        if folded ∧ ended = ['\n'] ∧ ¬leading ∧ ¬isBlank (← peek) then
          blockLines folded column fuel (if breaks.isEmpty then ' ' :: text else text) breaks
        else blockLines folded column fuel (adding ended text) breaks
      else return (text, ended, breaks)

/-- A block text, literal or folded, below a line with the given indentation. -/
def block (folded : Bool) (indent : Int) : Reading (List Char) := do
  next
  let (chomping, width) ← blockMarks
  match ← peek with
  | some c => if c ≠ ' ' ∧ ¬isBreak c then malformed
  | none => pure ()
  restOfLine
  let least := max 1 (indent + 1).toNat
  let (column, breaks) ← match width with
    | none => do
        let (breaks, deepest) ← blockStart (← remaining) [] 0
        pure (max least deepest, breaks)
    | some width => do
        let column := least + width - 1
        pure (column, ← blockBreaks column (← remaining) [])
  let (text, ended, breaks) ←
    if ← inBlock column then blockLines folded column (← remaining) [] breaks
    else pure ([], [], breaks)
  let text := text.reverse
  return match chomping with
    | .strip => text
    | .clip => text ++ ended
    | .keep => text ++ ended ++ breaks

end StorageLoad.Markup
