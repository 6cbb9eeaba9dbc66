/-!
Splitting a text at a separator.  The main statements are that a split at the first separator and
a split at all of them lose nothing (`splitFirst_eq_some_iff`, `intercalate_splitAll`).
-/

namespace StorageLoad.Text

/-- The parts before and after the first separator. -/
def splitFirst (sep : Char) : List Char → Option (List Char × List Char)
  | [] => none
  | c :: cs =>
      if c = sep then some ([], cs)
      else (splitFirst sep cs).map fun (before, after) => (c :: before, after)

/-- All the parts between separators; at least one. -/
def splitAll (sep : Char) : List Char → List (List Char)
  | [] => [[]]
  | c :: cs =>
      if c = sep then [] :: splitAll sep cs
      else
        match splitAll sep cs with
        | [] => [[c]]
        | part :: parts => (c :: part) :: parts

/-- A text splits at its first separator into the two parts around it, and only so. -/
theorem splitFirst_eq_some_iff {sep : Char} {cs before after : List Char} :
    splitFirst sep cs = some (before, after) ↔
      cs = before ++ sep :: after ∧ sep ∉ before := by
  induction cs generalizing before with
  | nil => simp [splitFirst]
  | cons c cs ih =>
    by_cases hc : c = sep
    · subst hc
      cases before with
      | nil => simp [splitFirst, eq_comm]
      | cons b before =>
        simp only [splitFirst, if_pos, Option.some.injEq, Prod.mk.injEq, List.cons_append,
          List.cons.injEq, List.mem_cons, not_or]
        constructor
        · rintro ⟨h, _⟩
          exact absurd h (by simp)
        · rintro ⟨⟨rfl, _⟩, h, _⟩
          exact absurd rfl h
    · cases before with
      | nil =>
        simp only [splitFirst, if_neg hc, Option.map_eq_some_iff, Prod.exists]
        constructor
        · rintro ⟨x, y, _, h⟩
          simp at h
        · rintro ⟨h, _⟩
          simp only [List.nil_append, List.cons.injEq] at h
          exact absurd h.1 hc
      | cons b before =>
        simp only [splitFirst, if_neg hc, Option.map_eq_some_iff, Prod.exists, Prod.mk.injEq,
          List.cons.injEq, List.cons_append, List.mem_cons, not_or]
        constructor
        · rintro ⟨x, y, h, ⟨rfl, rfl⟩, rfl⟩
          obtain ⟨h, hx⟩ := ih.1 h
          exact ⟨⟨rfl, h⟩, fun h => hc h.symm, hx⟩
        · rintro ⟨⟨rfl, h⟩, _, hb⟩
          exact ⟨before, after, ih.2 ⟨h, hb⟩, ⟨rfl, rfl⟩, rfl⟩

theorem splitFirst_eq_none_iff {sep : Char} {cs : List Char} :
    splitFirst sep cs = none ↔ sep ∉ cs := by
  induction cs with
  | nil => simp [splitFirst]
  | cons c cs ih =>
    by_cases hc : c = sep
    · simp [splitFirst, hc]
    · simp [splitFirst, hc, ih, show ¬sep = c from fun h => hc h.symm]

theorem splitAll_ne_nil (sep : Char) (cs : List Char) : splitAll sep cs ≠ [] := by
  cases cs with
  | nil => simp [splitAll]
  | cons c cs =>
    simp only [splitAll]
    split
    · simp
    · split <;> simp

/-- Joining the parts with the separator gives the text back. -/
theorem intercalate_splitAll (sep : Char) (cs : List Char) :
    [sep].intercalate (splitAll sep cs) = cs := by
  induction cs with
  | nil => rfl
  | cons c cs ih =>
    simp only [splitAll]
    split
    · rename_i hc
      cases h : splitAll sep cs with
      | nil => exact absurd h (splitAll_ne_nil sep cs)
      | cons part parts =>
        rw [h] at ih
        simp only [List.intercalate, List.intersperse, List.flatten_cons, List.nil_append] at ih ⊢
        rw [ih, hc]
        rfl
    · cases h : splitAll sep cs with
      | nil => exact absurd h (splitAll_ne_nil sep cs)
      | cons part parts =>
        rw [h] at ih
        cases parts with
        | nil => simpa [List.intercalate, List.intersperse] using ih
        | cons p ps =>
          simp only [List.intercalate, List.intersperse, List.flatten_cons] at ih ⊢
          simpa using ih

section Parts

variable {sep : Char}

theorem splitAll_append_sep (before after : List Char) :
    splitAll sep (before ++ sep :: after) = splitAll sep before ++ splitAll sep after := by
  induction before with
  | nil => simp [splitAll]
  | cons c cs ih =>
      simp only [List.cons_append, splitAll]
      split
      · rw [ih, List.cons_append]
      · rw [ih]
        cases h : splitAll sep cs with
        | nil => exact absurd h (splitAll_ne_nil sep cs)
        | cons part parts => rfl

theorem splitAll_of_not_mem {cs : List Char} (h : sep ∉ cs) : splitAll sep cs = [cs] := by
  induction cs with
  | nil => rfl
  | cons c cs ih =>
      have hc : c ≠ sep := fun hc => h (hc ▸ List.mem_cons_self)
      rw [splitAll, if_neg hc, ih fun hmem => h (List.mem_cons_of_mem c hmem)]

end Parts

end StorageLoad.Text
