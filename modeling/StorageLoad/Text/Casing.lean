/-!
Letter case, as far as it decides whether a text is one of a few lower case ASCII words.
-/

namespace StorageLoad.Text

/-- The lower case of a character where it is an ASCII letter: that of the capitals A to Z and of
the Kelvin sign.  No other character has a lower case that is spelled in ASCII alone, so texts
compare with ASCII words as their full lower case does. -/
def lower (c : Char) : Char :=
  if c.toNat = 0x212A then 'k' else c.toLower

/-- Whether a text is the given lower case ASCII word, in any case. -/
def isWord (word s : String) : Bool :=
  s.toList.map lower = word.toList

end StorageLoad.Text
