import StorageLoad.Value.Basic
import StorageLoad.Numeric.Literal
import StorageLoad.Text.Quoted

/-!
The flags of a command line, and what can be wrong in their use.
-/

namespace StorageLoad

/-- What a flag stands for: a request for help, a yes or no, or the text that follows it. -/
inductive Flag.Form where
  | help
  | switch
  | text
  | whole
  | real
  | choice (texts : List String)
  deriving Repr, DecidableEq

/-- A flag with its names, each a dash and a letter or two dashes and a word. -/
structure Flag where
  names : List String
  form : Flag.Form
  deriving Repr, DecidableEq

namespace Flag

/-- All the names, as messages call the flag. -/
def title (f : Flag) : String :=
  "/".intercalate f.names

def takesText (f : Flag) : Bool :=
  match f.form with
  | .help | .switch => false
  | _ => true

/-- The names of all flags with the flag of each, in their order. -/
def named (flags : List Flag) : List (String × Flag) :=
  flags.flatMap fun f => f.names.map (·, f)

def find? (flags : List Flag) (name : String) : Option Flag :=
  (named flags).lookup name

/-- Whether a switch with this name says yes; the names that begin with `--no-` say no. -/
def saysYes (name : String) : Bool :=
  !"--no-".toList.isPrefixOf name.toList

end Flag

namespace Arguments

inductive Mistake where
  /-- A word that begins the names of several flags. -/
  | ambiguous (text : String) (names : List String)
  /-- Texts that belong to no flag. -/
  | unrecognized (texts : List String)
  | noText (flag : Flag)
  | needlessText (flag : Flag) (text : String)
  | badWhole (flag : Flag) (text : String)
  | badReal (flag : Flag) (text : String)
  | badChoice (flag : Flag) (text : String) (choices : List String)
  deriving Repr, DecidableEq

namespace Mistake

/-- A message about one flag. -/
def about (flag : Flag) (text : String) : String :=
  s!"argument {flag.title}: {text}"

def message : Mistake → String
  | ambiguous text names => s!"ambiguous option: {text} could match " ++ ", ".intercalate names
  | unrecognized texts => "unrecognized arguments: " ++ " ".intercalate texts
  | noText flag => about flag "expected one argument"
  | needlessText flag text => about flag s!"ignored explicit argument {Text.Quoted.encode text}"
  | badWhole flag text => about flag s!"invalid int value: {Text.Quoted.encode text}"
  | badReal flag text => about flag s!"invalid float value: {Text.Quoted.encode text}"
  | badChoice flag text choices =>
      let listed := ", ".intercalate (choices.map Text.Quoted.encode)
      about flag s!"invalid choice: {Text.Quoted.encode text} (choose from {listed})"

end Mistake

/-- Why arguments are not read to their end. -/
inductive Stop where
  | help
  | mistake (cause : Mistake)
  deriving Repr, DecidableEq

end Arguments

namespace Flag

/-- The value of a text for a flag. -/
def convert (f : Flag) (text : String) : Except Arguments.Mistake Value :=
  match f.form with
  | .whole =>
      match Literal.integer text with
      | .ok n => .ok (.int n)
      | .error _ => .error (.badWhole f text)
  | .real =>
      match Literal.real text with
      | .ok x => .ok (.real x)
      | .error _ => .error (.badReal f text)
  | .choice texts =>
      if texts.contains text then .ok (.text text) else .error (.badChoice f text texts)
  | _ => .ok (.text text)

/-- The value that a flag is given by one of its names and, if it takes one, a text.  Two dashes
are no text: a flag they are attached to is given an empty list. -/
def read (f : Flag) (name text : String) : Except Arguments.Stop Value :=
  match f.form with
  | .help => .error .help
  | .switch => .ok (.bool (saysYes name))
  | _ => if text = "--" then .ok (.list []) else (f.convert text).mapError .mistake

end Flag

end StorageLoad
