/-!
The lines of a text.  A text that ends with a line end has no further line after it.
-/

namespace StorageLoad.Text

/-- The characters that end a line: the line controls, the information separators but the last
one, and the line ends beyond ASCII. -/
def endsLine (c : Char) : Bool :=
  ('\n' ≤ c && c ≤ '\r') || ('\x1c' ≤ c && c ≤ '\x1e') || c = '\u0085' || c =
    '\u2028' || c = '\u2029'

/-- Puts a character in front of the first line. -/
def onFirst (c : Char) : List (List Char) → List (List Char)
  | [] => [[c]]
  | line :: lines => (c :: line) :: lines

/-- The lines; a carriage return and a line feed after it end one line together. -/
def lines : List Char → List (List Char)
  | [] => []
  | '\r' :: '\n' :: cs => [] :: lines cs
  | c :: cs => if endsLine c then [] :: lines cs else onFirst c (lines cs)

theorem flatten_lines (cs : List Char) :
    (lines cs).flatten = cs.filter (!endsLine ·) := by
  fun_induction lines cs with
  | case1 => rfl
  | case2 cs ih =>
    have h : endsLine '\r' = true ∧ endsLine '\n' = true := by decide
    simp [ih, h.1, h.2]
  | case3 c cs _ h ih => simp [ih, h]
  | case4 c cs _ h ih =>
    rw [List.filter_cons_of_pos (by simpa using h), ← ih]
    cases lines cs <;> rfl

end StorageLoad.Text
