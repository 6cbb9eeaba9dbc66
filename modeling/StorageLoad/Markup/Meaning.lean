import StorageLoad.Markup.Node

/-!
What the nodes of an option document mean.  A text without a tag is a number, a truth value or
nothing if it has the form of one.
-/

namespace StorageLoad.Markup

/-! ## Forms of texts -/

namespace Form

/-- Digits of a class and underscores. -/
def areDigits (p : Char → Bool) (cs : List Char) : Bool :=
  cs.all fun c => p c || c = '_'

def isOctal (c : Char) : Bool :=
  '0' ≤ c && c ≤ '7'

/-- The text without a sign in front. -/
def unsigned : List Char → List Char
  | '-' :: cs => cs
  | '+' :: cs => cs
  | cs => cs

/-- One or two digits for a number below sixty. -/
def isSixtieth : List Char → Bool
  | [a] => a.isDigit
  | [a, b] => '0' ≤ a && a ≤ '5' && b.isDigit
  | _ => false

/-- Whole numbers: binary, octal, decimal, hexadecimal, or in base sixty with colons. -/
def isInteger (cs : List Char) : Bool :=
  match unsigned cs with
  | '0' :: 'b' :: ds => !ds.isEmpty && areDigits (fun c => c = '0' || c = '1') ds
  | '0' :: 'x' :: ds => !ds.isEmpty && areDigits (fun c => (Text.hexValue? c).isSome) ds
  | '0' :: ds => areDigits isOctal ds
  | d :: ds =>
      match Text.splitAll ':' ds with
      | first :: rest => d.isDigit && areDigits Char.isDigit first && rest.all isSixtieth
      | [] => false
  | [] => false

/-- An exponent with its sign, or nothing. -/
def isExponent : List Char → Bool
  | [] => true
  | e :: sign :: ds =>
      (e = 'e' || e = 'E') && (sign = '-' || sign = '+') && !ds.isEmpty && ds.all Char.isDigit
  | _ => false

/-- The part after a point: digits and an exponent. -/
def isFraction (cs : List Char) : Bool :=
  isExponent (cs.dropWhile fun c => c.isDigit || c = '_')

/-- Real numbers: with a point, in base sixty, infinite, or no number at all. -/
def isReal (cs : List Char) : Bool :=
  if [".nan", ".NaN", ".NAN"].contains (String.ofList cs) then true
  else if [".inf", ".Inf", ".INF"].contains (String.ofList (unsigned cs)) then true
  else
    match cs with
    | '.' :: d :: ds => d.isDigit && isFraction ds
    | _ =>
        match Text.splitFirst '.' (unsigned cs) with
        | some (d :: whole, places) =>
            match Text.splitAll ':' whole with
            | [whole] => d.isDigit && areDigits Char.isDigit whole && isFraction places
            | first :: rest =>
                d.isDigit && areDigits Char.isDigit first && rest.all isSixtieth &&
                  areDigits Char.isDigit places
            | [] => false
        | _ => false

/-- A word in lower case, with a capital in front, or in capitals. -/
def isSpelled (word : String) (s : String) : Bool :=
  s = word || s = word.capitalize || s = word.toUpper

def isBool (s : String) : Bool :=
  ["yes", "no", "true", "false", "on", "off"].any (isSpelled · s)

def isNull (s : String) : Bool :=
  s = "" || s = "~" || isSpelled "null" s

end Form

/-- The tag that a text has by its form. -/
def Tag.ofText (s : String) : String :=
  if Form.isBool s then bool
  else if Form.isReal s.toList then real
  else if Form.isInteger s.toList then int
  else if s = "<<" then merge
  else if Form.isNull s then null
  else if s = "=" then value
  else text

namespace Node

/-- The tag of a node. -/
def tag : Node → String
  | scalar tag text => tag.getD (Tag.ofText text)
  | sequence tag _ => tag.getD Tag.sequence
  | mapping tag _ => tag.getD Tag.mapping

end Node

/-! ## Values of texts -/

namespace Meaning

/-- The sign of a number, and the text after it; there has to be a text. -/
def signed (s : String) : Outcome (Int × String) :=
  match s.toList with
  | [] => .error (.reported .index "")
  | '-' :: cs => .ok (-1, String.ofList cs)
  | '+' :: cs => .ok (1, String.ofList cs)
  | _ => .ok (1, s)

/-- A whole number by its form.  Underscores do not count. -/
def integer (s : String) : Outcome Int := do
  let (sign, s) ← signed (String.ofList (s.toList.filter (· ≠ '_')))
  let n : Int ← match s.toList with
    | [] => throw (.reported .index "")
    | ['0'] => pure 0
    | '0' :: 'b' :: cs => Literal.integerIn 2 'b' (String.ofList cs)
    | '0' :: 'x' :: cs => Literal.integerIn 16 'x' (String.ofList cs)
    | '0' :: _ => Literal.integerIn 8 'o' s
    | cs =>
        if cs.contains ':' then do
          let parts ← (Text.splitAll ':' cs).mapM fun part =>
            (Literal.integer (String.ofList part) : Except NumberFault Int)
          pure (parts.foldl (fun n part => 60 * n + part) 0)
        else Literal.integer s
  return sign * n

/-- The sum of parts in base sixty, the last part first.  The powers of sixty are exact. -/
def sixtieths : Nat → List Float → Float → Except NumberFault Float
  | _, [], sum => .ok sum
  | base, part :: parts, sum => do
      sixtieths (base * 60) parts (sum + part * (← Double.ofInt base))

/-- A real number by its form.  Underscores and case do not count. -/
def real (s : String) : Outcome Float := do
  let (sign, s) ← signed (String.ofList ((s.toList.filter (· ≠ '_')).map Char.toLower))
  let x : Float ←
    if s = ".inf" then pure (1.0 / 0.0)
    else if s = ".nan" then return 0.0 / 0.0
    else if s.toList.contains ':' then do
      let parts ← (Text.splitAll ':' s.toList).mapM fun part =>
        (Literal.real (String.ofList part) : Except NumberFault Float)
      (sixtieths 1 parts.reverse 0.0 : Except NumberFault Float)
    else Literal.real s
  return if sign < 0 then -x else x

def bool (s : String) : Outcome Bool :=
  if ["yes", "true", "on"].any (Text.isWord · s) then .ok true
  else if ["no", "false", "off"].any (Text.isWord · s) then .ok false
  else .error (.reported .key s)

/-- The value of a text with a tag. -/
def ofText (tag text : String) : Outcome Value :=
  if tag = Tag.text then .ok (.text text)
  else if tag = Tag.null then .ok .null
  else if tag = Tag.bool then do return .bool (← bool text)
  else if tag = Tag.int then do return .int (← integer text)
  else if tag = Tag.real then do return .real (← real text)
  else .error .malformedDocument

mutual

/-- All entries of a mapping: first those that merge keys bring in, then its own. -/
def ownEntries : Node → Outcome (List (Node × Node))
  | .mapping _ entries => do
      let (merged, own) ← splitEntries entries
      return merged ++ own
  | _ => .error .malformedDocument

/-- The entries brought in by merge keys, and the others. -/
def splitEntries : List (Node × Node) → Outcome (List (Node × Node) × List (Node × Node))
  | [] => .ok ([], [])
  | (k, v) :: rest => do
      if k.tag = Tag.merge then
        let brought ← mergedEntries v
        let (merged, own) ← splitEntries rest
        return (brought ++ merged, own)
      else
        let (merged, own) ← splitEntries rest
        return (merged, (k, v) :: own)

/-- What a merge key brings in: the entries of a mapping, or of several, the last one first. -/
def mergedEntries : Node → Outcome (List (Node × Node))
  | .mapping _ entries => do
      let (merged, own) ← splitEntries entries
      return merged ++ own
  | .sequence _ items => do return (← itemEntries items).reverse.flatten
  | .scalar _ _ => .error .malformedDocument

def itemEntries : List Node → Outcome (List (List (Node × Node)))
  | [] => .ok []
  | item :: items => do return (← ownEntries item) :: (← itemEntries items)

end

/-- The tag of a key; an equals sign alone is a text there. -/
def keyTag (k : Node) : String :=
  if k.tag = Tag.value then Tag.text else k.tag

/-- Whether a node is written for no number at all.  All such nodes stand for one value, which is
the same key wherever it stands, although no number that is none equals another. -/
def isNoNumber : Node → Bool
  | .scalar tag text =>
      tag.getD (Tag.ofText text) = Tag.real &&
        String.ofList ((Form.unsigned (text.toList.filter (· ≠ '_'))).map Char.toLower) = ".nan"
  | _ => false

/-- Whether a node has the tag of a list or of a mapping. -/
def isCollection (node : Node) : Bool :=
  node.tag = Tag.sequence || node.tag = Tag.mapping

mutual

/-- The text of a node that has a tag of texts.  A mapping can have one, under an equals sign. -/
def textOf? : Node → Option String
  | .scalar _ text => some text
  | .sequence _ _ => none
  | .mapping _ entries => defaultText? entries

/-- The text under the first key that is an equals sign. -/
def defaultText? : List (Node × Node) → Option String
  | [] => none
  | (k, v) :: entries => if k.tag = Tag.value then textOf? v else defaultText? entries

end

/-- The value of a node that is neither a list nor a mapping. -/
def ofSimple (tag : String) (node : Node) : Outcome Value :=
  match textOf? node with
  | some text => ofText tag text
  | none => .error .malformedDocument

/-- What is wrong with a node by itself.  Lists and mappings are looked into later. -/
def check (tag : String) (node : Node) : Outcome Unit := do
  if !isCollection node then
    let _ ← ofSimple tag node

/-- The nodes right below a list or a mapping, each of them checked by itself, in their order. -/
def parts (node : Node) : Outcome (List Node) := do
  match node with
  | .sequence _ items =>
      if node.tag ≠ Tag.sequence then throw .malformedDocument
      items.forM fun item => check item.tag item
      return items
  | .mapping _ _ =>
      if node.tag ≠ Tag.mapping then throw .malformedDocument
      let entries ← ownEntries node
      entries.forM fun (k, v) => do
        check (keyTag k) k
        if isCollection k then throw .malformedDocument
        check v.tag v
      return entries.map (·.2)
  | .scalar _ _ => throw .malformedDocument

/-- Looks for what is wrong in lists and mappings, level by level from the outside. -/
def checkLevels : Nat → List Node → Outcome Unit
  | _, [] => .ok ()
  | 0, _ :: _ => .error .malformedDocument
  | depth + 1, level => do
      let below ← level.mapM parts
      checkLevels depth (below.flatten.filter isCollection)

/-- Puts an entry into a mapping.  A key that is no number replaces the value of one that is
none. -/
def putEntry (entries : List (Bool × Value × Value)) (noNumber : Bool) (k v : Value) :
    List (Bool × Value × Value) :=
  match entries with
  | [] => [(noNumber, k, v)]
  | (other, l, w) :: rest =>
      if (noNumber && other) || l.sameKey k then (other, l, v) :: rest
      else (other, l, w) :: putEntry rest noNumber k v

/-- The value of a node, to a given depth. -/
def ofNode : Nat → Node → Outcome Value
  | 0, _ => .error .malformedDocument
  | depth + 1, node =>
      if !isCollection node then ofSimple node.tag node
      else
        match node with
        | .sequence _ items => do return .list (← items.mapM (ofNode depth))
        | node => do
            let entries ← (← ownEntries node).foldlM (fun entries (k, v) => do
              let key ← ofSimple (keyTag k) k
              return putEntry entries (isNoNumber k) key (← ofNode depth v)) []
            return .map (entries.map (·.2))

/-- The value of a document's outermost node. -/
def ofRoot (depth : Nat) (root : Node) : Outcome Value := do
  check root.tag root
  checkLevels depth ([root].filter isCollection)
  ofNode depth root

end Meaning

end StorageLoad.Markup
