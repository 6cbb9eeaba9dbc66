import StorageLoad.Value.Basic

/-!
Taking an untyped value apart: its items, its two halves, its entries.
-/

namespace StorageLoad

/-- How a value fails to have the shape that its use needs. -/
inductive ShapeFault where
  /-- A value of a sort without items. -/
  | notIterable (sort : String)
  /-- A value of a sort without items where a pair was needed. -/
  | notUnpackable (sort : String)
  /-- Fewer than the two items of a pair. -/
  | tooFewItems (count : Nat)
  /-- More than the two items of a pair. -/
  | tooManyItems
  /-- A member of a list of entries that has no items. -/
  | entryNotSequence (index : Nat)
  /-- A member of a list of entries that has not two items. -/
  | entryLength (index count : Nat)
  /-- A key of a sort that can change. -/
  | notKey (sort : String)
  /-- Names that are not texts cannot be listed in order. -/
  | namesNotText
  /-- A value of a sort without a length. -/
  | noLength (sort : String)
  /-- A value where bytes were needed. -/
  | notBytes (sort : String)
  /-- A value that does not take part in arithmetic or in comparisons. -/
  | notNumber (sort : String)
  /-- A value that is no mapping where one was needed. -/
  | notMapping (sort : String)
  /-- A value that is no number of items. -/
  | notIndex (sort : String)
  /-- A value that names no file. -/
  | notPath (sort : String)
  deriving Repr, DecidableEq

namespace ShapeFault

def message : ShapeFault → String
  | notIterable sort => s!"'{sort}' object is not iterable"
  | notUnpackable sort => s!"cannot unpack non-iterable {sort} object"
  | tooFewItems count => s!"not enough values to unpack (expected 2, got {count})"
  | tooManyItems => "too many values to unpack (expected 2)"
  | entryNotSequence index =>
      s!"cannot convert dictionary update sequence element #{index} to a sequence"
  | entryLength index count =>
      s!"dictionary update sequence element #{index} has length {count}; 2 is required"
  | notKey sort => s!"unhashable type: '{sort}'"
  | namesNotText => "names must be texts"
  | noLength sort => s!"object of type '{sort}' has no len()"
  | notBytes sort => s!"a bytes-like object is required, not '{sort}'"
  | notNumber sort => s!"'{sort}' is not a number"
  | notMapping sort => s!"'{sort}' object has no attribute 'items'"
  | notIndex sort => s!"an integer is required, not '{sort}'"
  | notPath sort => s!"a path is required, not '{sort}'"

end ShapeFault

namespace Value

/-- The items of a list or tuple, the characters of a text, the keys of a mapping. -/
def items? : Value → Option (List Value)
  | list items => some items
  | tuple items => some items
  | text s => some (s.toList.map fun c => text (String.singleton c))
  | map entries => some (entries.map (·.1))
  | _ => none

def items (v : Value) : Except ShapeFault (List Value) :=
  match v.items? with
  | some items => .ok items
  | none => .error (.notIterable v.sort)

/-- The two items of a value that has just two. -/
def pair (v : Value) : Except ShapeFault (Value × Value) :=
  match v.items? with
  | none => .error (.notUnpackable v.sort)
  | some [a, b] => .ok (a, b)
  | some items =>
      if items.length < 2 then .error (.tooFewItems items.length) else .error .tooManyItems

mutual

/-- The sort of the first changeable part of a value, which keeps it from being a key. -/
def changeable? : Value → Option String
  | list _ => some "list"
  | map _ => some "dict"
  | tuple items => anyChangeable? items
  | _ => none

def anyChangeable? : List Value → Option String
  | [] => none
  | v :: vs =>
      match changeable? v with
      | some sort => some sort
      | none => anyChangeable? vs

end

/-- Adds the members of a list of pairs to a mapping, numbering them for error texts. -/
def putPairs (index : Nat) (entries : List (Value × Value)) :
    List Value → Except ShapeFault (List (Value × Value))
  | [] => .ok entries
  | item :: rest =>
      match item.items? with
      | none => .error (.entryNotSequence index)
      | some [k, v] =>
          match k.changeable? with
          | some sort => .error (.notKey sort)
          | none => putPairs (index + 1) (putEntry k v entries) rest
      | some parts => .error (.entryLength index parts.length)

/-- The entries of a mapping, or of a sequence of pairs read as one. -/
def entries : Value → Except ShapeFault (List (Value × Value))
  | map entries => .ok entries
  | v =>
      match v.items? with
      | some items => putPairs 0 [] items
      | none => .error (.notIterable v.sort)

/-- The entries of a value that has to be a mapping. -/
def ownEntries : Value → Except ShapeFault (List (Value × Value))
  | map entries => .ok entries
  | v => .error (.notMapping v.sort)

/-- The number of items or characters. -/
def length : Value → Except ShapeFault Nat
  | list items => .ok items.length
  | tuple items => .ok items.length
  | text s => .ok s.length
  | map entries => .ok entries.length
  | v => .error (.noLength v.sort)

end Value

end StorageLoad
