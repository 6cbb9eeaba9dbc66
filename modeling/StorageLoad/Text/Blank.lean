/-!
White space.  Two sets are in use: all white space of Unicode, and the part of it that may
surround a number.
-/

namespace StorageLoad.Text

/-- The blanks of the ASCII range other than the four separators: tab, line feed, vertical tab,
form feed, carriage return and space. -/
def isPlainBlank (c : Char) : Bool :=
  (9 ≤ c.toNat ∧ c.toNat ≤ 13) ∨ c = ' '

/-- White space of any script, the four separators U+001C to U+001F included. -/
def isBlank (c : Char) : Bool :=
  isPlainBlank c ∨ (0x1C ≤ c.toNat ∧ c.toNat ≤ 0x1F) ∨ c.toNat = 0x85 ∨ c.toNat = 0xA0 ∨
    c.toNat = 0x1680 ∨ (0x2000 ≤ c.toNat ∧ c.toNat ≤ 0x200A) ∨ c.toNat = 0x2028 ∨
    c.toNat = 0x2029 ∨ c.toNat = 0x202F ∨ c.toNat = 0x205F ∨ c.toNat = 0x3000

/-- White space that may surround a number: all of it but the four separators. -/
def isMargin (c : Char) : Bool :=
  isBlank c ∧ ¬ (0x1C ≤ c.toNat ∧ c.toNat ≤ 0x1F)

/-- The text without its leading and trailing characters of a class. -/
def trim (blank : Char → Bool) (cs : List Char) : List Char :=
  ((cs.dropWhile blank).reverse.dropWhile blank).reverse

end StorageLoad.Text
