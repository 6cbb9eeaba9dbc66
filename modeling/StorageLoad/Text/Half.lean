/-!
Halves of surrogate pairs.  A half alone is no character, but an escape can put one into a text.
It is kept as a character of the last plane that stands for nothing else.  The main statement is
that the code point of a kept half is that of the half (`codeOf_ofCode`).
-/

namespace StorageLoad.Text

/-- The code points of halves of surrogate pairs. -/
def isHalfCode (code : Nat) : Bool :=
  0xD800 ≤ code && code < 0xE000

/-- How far from its code point a half is kept. -/
def halfShift : Nat := 0x100000

/-- Whether a character is a kept half. -/
def isHalf (c : Char) : Bool :=
  halfShift ≤ c.toNat && isHalfCode (c.toNat - halfShift)

/-- The character of a code point; a half is kept. -/
def ofCode (code : Nat) : Char :=
  Char.ofNat (if isHalfCode code then halfShift + code else code)

/-- The code point of a character; a kept half has its own. -/
def codeOf (c : Char) : Nat :=
  if isHalf c then c.toNat - halfShift else c.toNat

theorem codeOf_ofCode {code : Nat} (h : isHalfCode code = true) :
    codeOf (ofCode code) = code := by
  have hb : 0xD800 ≤ code ∧ code < 0xE000 := by simpa [isHalfCode] using h
  have hv : (halfShift + code).isValidChar := by
    unfold halfShift Nat.isValidChar
    omega
  have hn : (ofCode code).toNat = halfShift + code := by
    rw [ofCode, if_pos h, Char.ofNat, dif_pos hv]
    rfl
  simp [codeOf, isHalf, hn, h]

/-- The code points of a text. -/
def codes (s : String) : List Nat :=
  s.toList.map codeOf

/-- Whether a text stands before another, or is the same, by their code points. -/
def upTo (s t : String) : Bool :=
  !decide (codes t < codes s)

end StorageLoad.Text
