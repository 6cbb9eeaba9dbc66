import StorageLoad.Arguments.Flag
import StorageLoad.Text.Split

/-!
Reading the arguments of a command line.  The names of flags may be cut short as long as they stay
distinct, a text may be attached to its flag, and letters of flags without text may stand together
behind one dash.
-/

namespace StorageLoad.Arguments

open Text

/-- How one argument reads. -/
inductive Argument where
  | plain (text : String)
  /-- Two dashes; all arguments after them are plain. -/
  | separator
  /-- A flag by a name, and the text that is attached to it. -/
  | given (flag : Flag) (name : String) (attached : Option (List Char))
  /-- Neither a flag nor a plain text. -/
  | unknown (text : String)
  deriving Repr, DecidableEq

def Argument.text : Argument → String
  | plain text => text
  | separator => "--"
  | given _ name _ => name
  | unknown text => text

/-- A dash and a decimal number; a line break may follow. -/
def isNegativeNumber : List Char → Bool
  | '-' :: cs =>
      let cs := if cs.getLast? = some '\n' then cs.dropLast else cs
      match splitFirst '.' cs with
      | some (whole, part) => whole.all isDigit && !part.isEmpty && part.all isDigit
      | none => !cs.isEmpty && cs.all isDigit
  | _ => false

/-- The flags whose names a word begins: behind two dashes it may be any start of a name, behind
one dash it is a letter, and the rest of the word is attached to it. -/
def candidates (flags : List Flag) (cs : List Char) : List (Flag × String × Option (List Char)) :=
  match cs with
  | '-' :: '-' :: _ =>
      let (start, attached) : List Char × Option (List Char) := match splitFirst '=' cs with
        | some (start, text) => (start, some text)
        | none => (cs, none)
      (Flag.named flags).filterMap fun (name, flag) =>
        if start.isPrefixOf name.toList then some (flag, name, attached) else none
  | _ =>
      (Flag.named flags).filterMap fun (name, flag) =>
        if name.toList = cs.take 2 then some (flag, name, some (cs.drop 2)) else none

/-- A flag by its full name, with a text attached to it by an equals sign. -/
def assigned? (flags : List Flag) (cs : List Char) : Option Argument := do
  let (name, text) ← splitFirst '=' cs
  let name := String.ofList name
  let flag ← Flag.find? flags name
  return .given flag name (some text)

/-- A word that begins with a dash and is no name of a flag. -/
def ofWord (flags : List Flag) (s : String) : Except Mistake Argument :=
  match assigned? flags s.toList with
  | some argument => .ok argument
  | none =>
      match candidates flags s.toList with
      | [(flag, name, attached)] => .ok (.given flag name attached)
      | [] => .ok (if isNegativeNumber s.toList || s.toList.contains ' ' then .plain s
          else .unknown s)
      | several => .error (.ambiguous s (several.map fun (_, name, _) => name))

/-- How an argument reads that stands before any separator. -/
def Argument.ofString (flags : List Flag) (s : String) : Except Mistake Argument :=
  match s.toList with
  | '-' :: rest =>
      match Flag.find? flags s with
      | some flag => .ok (.given flag s none)
      | none => if rest.isEmpty then .ok (.plain s) else ofWord flags s
  | _ => .ok (.plain s)

/-- How all the arguments read. -/
def ofStrings (flags : List Flag) : List String → Except Mistake (List Argument)
  | [] => .ok []
  | s :: rest =>
      if s = "--" then .ok (.separator :: rest.map .plain)
      else do
        let first ← Argument.ofString flags s
        return first :: (← ofStrings flags rest)

/-- A flag by the name it is used with, and the text for it. -/
structure Use where
  flag : Flag
  name : String
  text : String

/-- The uses of flags in one argument; the last one may wait for its text. -/
inductive Uses where
  | done (uses : List Use)
  | waiting (uses : List Use) (flag : Flag) (name : String)

/-- Puts a use in front. -/
def Uses.cons (u : Use) : Uses → Uses
  | done uses => .done (u :: uses)
  | waiting uses flag name => .waiting (u :: uses) flag name

/-- A flag without an attached text. -/
def Uses.bare (flag : Flag) (name : String) : Uses :=
  if flag.takesText then .waiting [] flag name else .done [⟨flag, name, ""⟩]

def isLong (name : String) : Bool :=
  "--".toList.isPrefixOf name.toList

/-- A flag with an attached text.  If the flag is a letter that takes none, the text holds the
letters of more flags. -/
def expand (flags : List Flag) (flag : Flag) (name : String) :
    List Char → Except Mistake Uses
  | [] =>
      if flag.takesText then .ok (.done [⟨flag, name, ""⟩]) else .error (.needlessText flag "")
  | c :: rest =>
      let text := String.ofList (c :: rest)
      if flag.takesText then .ok (.done [⟨flag, name, text⟩])
      else if isLong name then .error (.needlessText flag text)
      else
        let letter := String.ofList ['-', c]
        match Flag.find? flags letter with
        | none => .error (.needlessText flag text)
        | some next =>
            let others :=
              if rest.isEmpty then .ok (.bare next letter) else expand flags next letter rest
            others.map (·.cons ⟨flag, name, ""⟩)

def Uses.of (flags : List Flag) (flag : Flag) (name : String) :
    Option (List Char) → Except Mistake Uses
  | none => .ok (.bare flag name)
  | some text => expand flags flag name text

/-- A flag and the value it is given. -/
structure Setting where
  flag : Flag
  value : Value

/-- What is given by the uses of flags, and the texts that belong to none. -/
structure Reading where
  settings : List Setting
  unrecognized : List String

/-- Reads uses of flags in their order. -/
def settingsOf (uses : List Use) : Except Stop (List Setting) :=
  uses.mapM fun u => do return ⟨u.flag, ← u.flag.read u.name u.text⟩

/-- Reads arguments one after the other.  A flag that waits for its text takes the next argument,
which has to be a plain one. -/
def gather (flags : List Flag) : List Argument → Except Stop Reading
  | [] => .ok ⟨[], []⟩
  | .given flag name attached :: rest => do
      match ← (Uses.of flags flag name attached).mapError .mistake with
      | .done uses =>
          let first ← settingsOf uses
          let r ← gather flags rest
          return { r with settings := first ++ r.settings }
      | .waiting uses flag name =>
          match rest with
          | .plain text :: rest =>
              let first ← settingsOf (uses ++ [⟨flag, name, text⟩])
              let r ← gather flags rest
              return { r with settings := first ++ r.settings }
          | _ => throw (.mistake (.noText flag))
  | argument :: rest => do
      let r ← gather flags rest
      return { r with unrecognized := argument.text :: r.unrecognized }

/-- All that is given on a command line, in order. -/
def read (flags : List Flag) (arguments : List String) : Except Stop (List Setting) := do
  let r ← gather flags (← (ofStrings flags arguments).mapError .mistake)
  if r.unrecognized.isEmpty then return r.settings
  else throw (.mistake (.unrecognized r.unrecognized))

end StorageLoad.Arguments
