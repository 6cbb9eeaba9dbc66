import StorageLoad.Markup.Scalar

/-!
The tokens of an option document.  Indentation and simple keys, which are known as keys only by
the colon after them, are turned into tokens of their own here.
-/

namespace StorageLoad.Markup

inductive Token where
  /-- The version of the language, by its first number. -/
  | version (major : Nat)
  /-- A handle that stands for the front of tags. -/
  | handle (name : List Char) (stands : List Char)
  /-- Any other directive, which has no meaning. -/
  | directive
  | documentStart
  | documentEnd
  | blockSequenceStart
  | blockMappingStart
  | blockEnd
  | flowSequenceStart
  | flowSequenceEnd
  | flowMappingStart
  | flowMappingEnd
  | blockEntry
  | flowEntry
  | key
  | value
  | alias (name : List Char)
  | anchor (name : List Char)
  | tag (handle : Option (List Char)) (suffix : List Char)
  /-- A text, and whether it is plain. -/
  | scalar (text : List Char) (plain : Bool)
  deriving Repr, DecidableEq

/-- A place where a simple key may have started. -/
structure PossibleKey where
  /-- The number of tokens before it. -/
  position : Nat
  /-- Whether it has to be a key. -/
  isRequired : Bool
  index : Nat
  line : Nat
  column : Nat

/-- The tokens so far and what their continuation depends on. -/
structure Lexer where
  /-- The tokens, the last one first. -/
  found : List Token
  count : Nat
  /-- The column of the block collection around, and those of the collections around that. -/
  indent : Int
  indents : List Int
  /-- For each flow collection around, the innermost first, and for the block outside of them all,
  where a simple key may have started. -/
  keys : Option PossibleKey
  outerKeys : List (Option PossibleKey)
  /-- Whether a simple key may start here. -/
  allowsKey : Bool

namespace Lexer

/-- All tokens in their order. -/
def tokens (s : Lexer) : List Token :=
  s.found.reverse

def push (t : Token) (s : Lexer) : Lexer :=
  { s with found := t :: s.found, count := s.count + 1 }

/-- Puts a token in between, behind the first `position` ones. -/
def insert (position : Nat) (t : Token) (s : Lexer) : Lexer :=
  { s with found := s.found.insertIdx (s.count - position) t, count := s.count + 1 }

end Lexer

/-- A part of finding tokens. -/
abbrev Lexing (α : Type) := StateT Lexer (StateT Cursor (Except Stop)) α

namespace Lexing

open Reading

def read {α : Type} (part : Reading α) : Lexing α :=
  StateT.lift part

def malformed {α : Type} : Lexing α :=
  read Reading.malformed

def emit (t : Token) : Lexing Unit :=
  modify (Lexer.push t)

def allowKey (allows : Bool) : Lexing Unit :=
  modify fun s => { s with allowsKey := allows }

/-- Whether a flow collection is open. -/
def inFlow : Lexing Bool :=
  return !(← get).outerKeys.isEmpty

def column : Lexing Int := do
  return (← read get).column

/-- Closes the block collections that are indented deeper than a column. -/
def unwind (column : Int) : Lexing Unit :=
  modify fun s => if s.outerKeys.isEmpty then close column s.indents s else s
where
  close (column : Int) : List Int → Lexer → Lexer
    | [], s => s
    | indent :: indents, s =>
        if column < s.indent then
          close column indents { s.push .blockEnd with indent, indents }
        else s

/-- Opens a block collection if a column lies deeper than the one around, with its token at a
place among the tokens. -/
def openBlock (column : Int) (t : Token) (position : Nat) : Lexing Unit :=
  modify fun s =>
    if s.indent < column then
      { s.insert position t with indent := column, indents := s.indent :: s.indents }
    else s

/-- Opens a block collection here. -/
def openBlockHere (t : Token) : Lexing Unit := do
  openBlock (← column) t (← get).count

/-- Gives up a possible key that lies on another line or too far back. -/
def dropStale (here : Cursor) (k : Option PossibleKey) : Lexing (Option PossibleKey) := do
  match k with
  | none => return none
  | some key =>
      if key.line ≠ here.line ∨ 1024 < here.index - key.index then
        if key.isRequired then malformed else return none
      else return some key

def dropStaleKeys : Lexing Unit := do
  let here ← read get
  let s ← get
  let keys ← dropStale here s.keys
  let outerKeys ← s.outerKeys.mapM (dropStale here)
  modify fun s => { s with keys, outerKeys }

/-- Gives up the possible key of the collection around. -/
def dropKey : Lexing Unit := do
  match (← get).keys with
  | some key => if key.isRequired then malformed
  | none => pure ()
  modify fun s => { s with keys := none }

/-- Remembers that a simple key may start here. -/
def saveKey : Lexing Unit := do
  if (← get).allowsKey then
    dropKey
    let here ← read get
    let flow ← inFlow
    modify fun s =>
      { s with
        keys := some {
          position := s.count, isRequired := !flow && decide (s.indent = (here.column : Int)),
          index := here.index, line := here.line, column := here.column } }

/-- A token at the start of a line that belongs to no collection. -/
def outsideBlocks : Lexing Unit := do
  unwind (-1)
  dropKey
  allowKey false

/-- Passes blanks, comments and line breaks.  After a line break a simple key may start, unless in
flow. -/
def toNext : Nat → Lexing Unit
  | 0 => return
  | fuel + 1 => do
      let _ ← read (span (· = ' '))
      if (← read peek) = some '#' then
        let _ ← read (span fun c => !isBreak c)
      let ended ← read lineBreak
      if ended.isEmpty then return
      else
        if !(← inFlow) then allowKey true
        toNext fuel

/-! ## Directives -/

/-- Digits, at least one and no more than an integer may have, and the number they spell. -/
def digits : Reading Nat := do
  let ds ← span Char.isDigit
  if ds.isEmpty then Reading.malformed
  else if digitLimit < ds.length then
    throw ⟨.number (.tooManyDigits ds.length), (← get).index + 1⟩
  else return Text.digitsValue (ds.filterMap Text.digitValue?)

/-- A handle: an exclamation mark, or a name between two. -/
def tagHandle : Reading (List Char) := do
  if (← peek) ≠ some '!' then Reading.malformed
  else
    next
    if (← peek) = some ' ' then return ['!']
    else
      let name ← span isNameChar
      if (← peek) = some '!' then
        next
        return '!' :: name ++ ['!']
      else Reading.malformed

/-- The bytes after percent signs, as many as follow each other. -/
def uriBytes : Nat → Reading (List UInt8)
  | 0 => return []
  | fuel + 1 => do
      if (← peek) ≠ some '%' then return []
      else
        next
        match ((← get).rest.take 2).mapM Text.hexValue? with
        | some [a, b] =>
            skip 2
            return UInt8.ofNat (16 * a + b) :: (← uriBytes fuel)
        | _ => Reading.malformed

/-- The characters that may stand in a tag as they are. -/
def isTagChar (c : Char) : Bool :=
  c.isAlphanum || "-;/?:@&=+$,_.!~*'()[]".toList.contains c

/-- The characters of a tag. -/
def tagChars : Nat → Reading (List Char)
  | 0 => return []
  | fuel + 1 => do
      let word ← span isTagChar
      if (← peek) = some '%' then
        let bytes ← uriBytes (← remaining)
        match String.fromUTF8? ⟨bytes.toArray⟩ with
        | some s => return word ++ s.toList ++ (← tagChars fuel)
        | none => Reading.malformed
      else return word

/-- A tag or the front of one; it may not be empty. -/
def tagText : Reading (List Char) := do
  let text ← tagChars (← remaining)
  if text.isEmpty then Reading.malformed else return text

/-- A space or the end of a line has to follow. -/
def expectGap : Reading Unit := do
  match ← peek with
  | some c => if c ≠ ' ' ∧ ¬isBreak c then Reading.malformed
  | none => pure ()

def spaces : Reading Unit := do
  let _ ← span (· = ' ')

/-- The two numbers of a version. -/
def versionNumbers : Reading Token := do
  spaces
  let major ← digits
  if (← peek) ≠ some '.' then Reading.malformed
  else
    next
    let _ ← digits
    expectGap
    return .version major

/-- A handle and what it stands for. -/
def handleMeaning : Reading Token := do
  spaces
  let name ← tagHandle
  if (← peek) ≠ some ' ' then Reading.malformed
  else
    spaces
    let stands ← tagText
    expectGap
    return .handle name stands

def directive : Reading Token := do
  next
  let name ← span isNameChar
  if name.isEmpty then Reading.malformed
  else
    expectGap
    let t ←
      if name = "YAML".toList then versionNumbers
      else if name = "TAG".toList then handleMeaning
      else do
        let _ ← span fun c => !isBreak c
        pure .directive
    restOfLine
    return t

/-! ## Properties of nodes -/

/-- The name after an ampersand or an asterisk. -/
def anchorName : Reading (List Char) := do
  next
  let name ← span isNameChar
  let after ← peek
  if name.isEmpty then Reading.malformed
  else if isGap after || after.any ("?:,]\x7d%@\x60".toList.contains ·) then return name
  else Reading.malformed

/-- Whether an exclamation mark follows before the next space or line end. -/
def marksHandle : List Char → Bool
  | [] => false
  | c :: cs => if c = ' ' || isBreak c then false else c = '!' || marksHandle cs

/-- A tag: in angle brackets, with a handle, or a single exclamation mark. -/
def tag : Reading Token := do
  let rest := (← get).rest.drop 1
  let t ←
    if rest.head? = some '<' then do
      skip 2
      let suffix ← tagText
      if (← peek) = some '>' then
        next
        pure (.tag none suffix)
      else Reading.malformed
    else if isGap rest.head? then do
      next
      pure (.tag none ['!'])
    else do
      let handle ←
        if marksHandle rest then tagHandle
        else do
          next
          pure ['!']
      pure (.tag (some handle) (← tagText))
  expectGap
  return t

/-! ## Fetching tokens -/

/-- A mark of one character. -/
def mark (t : Token) : Lexing Unit := do
  read next
  emit t

def openFlow (t : Token) : Lexing Unit := do
  saveKey
  modify fun s => { s with keys := none, outerKeys := s.keys :: s.outerKeys }
  allowKey true
  mark t

def closeFlow (t : Token) : Lexing Unit := do
  dropKey
  match (← get).outerKeys with
  | [] => malformed
  | keys :: outerKeys => modify fun s => { s with keys, outerKeys }
  allowKey false
  mark t

def flowEntry : Lexing Unit := do
  allowKey true
  dropKey
  mark .flowEntry

/-- A key or an entry of a block may start only where a simple key may. -/
def expectKeyPlace : Lexing Unit := do
  if !(← get).allowsKey then malformed

def blockEntry : Lexing Unit := do
  if !(← inFlow) then
    expectKeyPlace
    openBlockHere .blockSequenceStart
  allowKey true
  dropKey
  mark .blockEntry

def explicitKey : Lexing Unit := do
  let flow ← inFlow
  if !flow then
    expectKeyPlace
    openBlockHere .blockMappingStart
  allowKey (!flow)
  dropKey
  mark .key

/-- A colon makes what a simple key may be into a key. -/
def value : Lexing Unit := do
  let flow ← inFlow
  match (← get).keys with
  | some key =>
      modify fun s =>
        { s.insert key.position .key with keys := none }
      if !flow then openBlock key.column .blockMappingStart key.position
      allowKey false
  | none =>
      if !flow then
        expectKeyPlace
        openBlockHere .blockMappingStart
      allowKey (!flow)
      dropKey
  mark .value

/-- A token that a simple key may start with. -/
def keyStart (part : Reading Token) : Lexing Unit := do
  saveKey
  allowKey false
  emit (← read part)

def plainText : Lexing Unit := do
  saveKey
  allowKey false
  let flow ← inFlow
  let indent := (← get).indent + 1
  let (text, ended) ← read (plain flow indent)
  if ended then allowKey true
  emit (.scalar text true)

def blockText (folded : Bool) : Lexing Unit := do
  allowKey true
  dropKey
  let indent := (← get).indent
  emit (.scalar (← read (block folded indent)) false)

/-- Whether a plain text can start with a character, given the one after it. -/
def startsPlain (flow : Bool) (c : Char) (after : Option Char) : Bool :=
  !("-?:,[]\x7b\x7d#&*!|>'\"%@\x60".toList.contains c || isGap (some c)) ||
    (!isGap after && (c = '-' || (!flow && (c = '?' || c = ':'))))

/-- The token that starts with a character. -/
def fetch (c : Char) : Lexing Unit := do
  let flow ← inFlow
  let after ← read (peekAt 1)
  let first : Bool := (← column) = 0
  let separates : Bool := first && (← read atSeparator)
  if first && c = '%' then do
    outsideBlocks
    emit (← read directive)
  else if separates then do
    outsideBlocks
    read (skip 3)
    emit (if c = '-' then .documentStart else .documentEnd)
  else if c = '[' then openFlow .flowSequenceStart
  else if c = '\x7b' then openFlow .flowMappingStart
  else if c = ']' then closeFlow .flowSequenceEnd
  else if c = '\x7d' then closeFlow .flowMappingEnd
  else if c = ',' then flowEntry
  else if c = '-' && isGap after then blockEntry
  else if c = '?' && (flow || isGap after) then explicitKey
  else if c = ':' && (flow || isGap after) then value
  else if c = '*' then keyStart do return .alias (← anchorName)
  else if c = '&' then keyStart do return .anchor (← anchorName)
  else if c = '!' then keyStart tag
  else if c = '|' && !flow then blockText false
  else if c = '>' && !flow then blockText true
  else if c = '\'' || c = '"' then keyStart do return .scalar (← quoted c) false
  else if startsPlain flow c after then plainText
  else malformed

/-- Finds the next token, and tells whether there was one before the end. -/
def round : Lexing Bool := do
  toNext (← read remaining)
  dropStaleKeys
  unwind (← column)
  match ← read peek with
  | some c =>
      fetch c
      return true
  | none =>
      outsideBlocks
      return false

end Lexing

/-- The number of tokens to which none can be added in between: all before the first place where a
simple key may have started. -/
def Lexer.settled (s : Lexer) : Nat :=
  ((s.keys :: s.outerKeys).filterMap id).foldl (fun n key => min n key.position) s.count

/-- The tokens of a text, up to where none can be found any more, and why not. -/
structure Lexed where
  tokens : List Token
  stop : Option Stop

namespace Lexed

/-- What is known where no further token can be found: the settled tokens, and why there are no
more. -/
def stopped (s : Lexer) (here : Cursor) (stop : Stop) : Lexed :=
  match Lexing.dropStaleKeys s here with
  | .ok (((), s), _) => ⟨s.tokens.take s.settled, some stop⟩
  | .error stale => ⟨s.tokens, some stale⟩

/-- All tokens from here on. -/
def rest : Nat → Lexer → Cursor → Lexed
  | 0, s, _ => ⟨s.tokens, some ⟨.malformedDocument, 0⟩⟩
  | fuel + 1, s, here =>
      match Lexing.round s here with
      | .ok ((true, s), here) => rest fuel s here
      | .ok ((false, s), _) => ⟨s.tokens, none⟩
      | .error stop => stopped s here stop

def ofText (cs : List Char) : Lexed :=
  let start : Lexer :=
    { found := [], count := 0, indent := -1, indents := [], keys := none, outerKeys := [],
      allowsKey := true }
  rest (cs.length + 1) start (Cursor.ofText cs)

end Lexed

end StorageLoad.Markup
