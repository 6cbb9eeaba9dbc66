import StorageLoad.Text.Half
import StorageLoad.Text.Hex

/-!
Escapes of four hexadecimal digits in a text that is written with them.  The two halves of a
surrogate pair have an escape each; so has a half that stands alone, which has no other written
form.
-/

namespace StorageLoad.Text

/-- The first halves of surrogate pairs. -/
def isFirstHalf (code : Nat) : Bool :=
  0xD800 ≤ code && code < 0xDC00

/-- The second halves of surrogate pairs. -/
def isSecondHalf (code : Nat) : Bool :=
  0xDC00 ≤ code && code < 0xE000

/-- The code point of an escape that a text starts with. -/
def escapedCode? : List Char → Option Nat
  | '\\' :: 'u' :: cs => if (cs.take 4).length = 4 then hexNumber? (cs.take 4) else none
  | _ => none

/-- Puts kept halves in the place of the escapes of halves that stand alone. -/
def keepHalves (cs : List Char) : List Char :=
  match cs with
  | [] => []
  | '\\' :: c :: rest =>
      match escapedCode? ('\\' :: c :: rest) with
      | some code =>
          let pairs := isFirstHalf code && (escapedCode? (rest.drop 4)).any isSecondHalf
          if pairs then '\\' :: c :: rest.take 10 ++ keepHalves (rest.drop 10)
          else if isHalfCode code then ofCode code :: keepHalves (rest.drop 4)
          else '\\' :: c :: keepHalves rest
      | none => '\\' :: c :: keepHalves rest
  | c :: rest => c :: keepHalves rest
termination_by cs.length
decreasing_by all_goals simp only [List.length_cons, List.length_drop]; omega

/-- A kept half as the escape of its own code point. -/
def escapeHalf (c : Char) : List Char :=
  if isHalf c then '\\' :: 'u' :: hex 4 (codeOf c) else [c]

/-- Puts escapes in the place of kept halves. -/
def escapeHalves (cs : List Char) : List Char :=
  cs.flatMap escapeHalf

theorem keepHalves_of_not_mem {cs : List Char} (h : '\\' ∉ cs) : keepHalves cs = cs := by
  induction cs with
  | nil => rw [keepHalves]
  | cons c cs ih =>
    have hc : c ≠ '\\' := fun heq => h (by simp [heq])
    have hrest := ih fun hm => h (List.mem_cons_of_mem c hm)
    rw [keepHalves]
    · rw [hrest]
    · exact fun _ _ heq _ => absurd heq hc

end StorageLoad.Text
