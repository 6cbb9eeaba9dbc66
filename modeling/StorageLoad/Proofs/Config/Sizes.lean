import Mathlib.Data.List.TakeWhile
import StorageLoad.Config.Reading
import StorageLoad.Proofs.Config.Spelling
import StorageLoad.Proofs.Literal

/-!
Texts of sizes.  A text is a size if it is digits and behind them at most one unit letter, with
blanks wherever they may stand, and it is read as the number of the digits times the unit
(`size_exact`).
-/

namespace StorageLoad

namespace Text

variable {c : Char} {cs before after : List Char} {p : Char → Bool}

theorem exists_start_of_isDigit (h : isDigit c) :
    ∃ start ∈ digitZeros, ∃ d < 10, c = Char.ofNat (start + d) := by
  rw [isDigit, digitValue?, Option.isSome_map] at h
  obtain ⟨start, hfound⟩ := Option.isSome_iff_exists.mp h
  have hrange := List.find?_some hfound
  rw [decide_eq_true_eq] at hrange
  refine ⟨start, List.mem_of_find?_eq_some hfound, c.toNat - start, by omega, ?_⟩
  rw [Nat.add_sub_cancel' hrange.1, Char.ofNat_toNat]

theorem isBlank_eq_false_of_isDigit (h : isDigit c) : isBlank c = false := by
  have hall : ∀ start ∈ digitZeros, ∀ d < 10, isBlank (Char.ofNat (start + d)) = false := by
    decide +kernel
  obtain ⟨start, hstart, d, hd, rfl⟩ := exists_start_of_isDigit h
  exact hall start hstart d hd

theorem isDigit_eq_false_of_isBlank (h : isBlank c) : isDigit c = false := by
  by_contra hdigit
  rw [isBlank_eq_false_of_isDigit (by simpa using hdigit)] at h
  cases h

theorem takeWhile_append_of_stop (h : ∀ c ∈ before, p c)
    (hstop : ∀ c ∈ after.head?, p c = false) :
    (before ++ after).takeWhile p = before := by
  rw [List.takeWhile_append_of_pos h]
  cases after with
  | nil => rw [List.takeWhile_nil, List.append_nil]
  | cons c cs =>
      have hc := hstop c rfl
      rw [List.takeWhile_cons_of_neg (by simp [hc]), List.append_nil]

theorem dropWhile_append_of_stop (h : ∀ c ∈ before, p c)
    (hstop : ∀ c ∈ after.head?, p c = false) :
    (before ++ after).dropWhile p = after := by
  rw [List.dropWhile_append_of_pos h]
  cases after with
  | nil => rfl
  | cons c cs =>
      have hc := hstop c rfl
      rw [List.dropWhile_cons_of_neg (by simp [hc])]

/-- The number that digits of any script spell. -/
def decimal (digits : List Char) : Nat :=
  digitsValue (digits.filterMap digitValue?)

theorem length_filterMap_digitValue? (h : ∀ c ∈ cs, isDigit c) :
    (cs.filterMap digitValue?).length = cs.length :=
  List.filterMap_length_eq_length.mpr h

end Text

namespace Config

open Text

/-- The letters of the units, among them the Kelvin sign, each with its number of bytes. -/
def units : List (Char × Nat) :=
  [('b', 1), ('B', 1), ('k', 2 ^ 10), ('K', 2 ^ 10), (Char.ofNat 0x212A, 2 ^ 10), ('m', 2 ^ 20),
    ('M', 2 ^ 20), ('g', 2 ^ 30), ('G', 2 ^ 30)]

/-- The texts of sizes, with their digits and the number of bytes of their unit. -/
inductive IsSizeText : List Char → List Char → Nat → Prop
  | bare (before digits after : List Char) (hbefore : ∀ c ∈ before, isBlank c) (hne : digits ≠ [])
      (hdigits : ∀ c ∈ digits, isDigit c) (hafter : ∀ c ∈ after, isBlank c) :
      IsSizeText (before ++ (digits ++ after)) digits 1
  | withUnit (before digits between : List Char) (letter : Char) (after : List Char)
      (factor : Nat) (hbefore : ∀ c ∈ before, isBlank c) (hne : digits ≠ [])
      (hdigits : ∀ c ∈ digits, isDigit c) (hbetween : ∀ c ∈ between, isBlank c)
      (hunit : (letter, factor) ∈ units) (hafter : ∀ c ∈ after, isBlank c) :
      IsSizeText (before ++ (digits ++ (between ++ letter :: after))) digits factor

variable {c : Char} {cs digits : List Char} {factor : Nat} {s : String}

theorem unit?_eq_some_iff : unit? c = some factor ↔ (c, factor) ∈ units := by
  have hunits : ∀ unit ∈ units, unit? unit.1 = some unit.2 := by decide
  have hcasings : ['b', 'k', 'm', 'g'].flatMap casings ⊆ units.map Prod.fst := by decide
  refine ⟨fun h => ?_, hunits (c, factor)⟩
  have hletter : lower c ∈ ['b', 'k', 'm', 'g'] := by
    unfold unit? at h
    split at h
    case h_5 => cases h
    all_goals
      rename_i hlower
      rw [hlower]
      decide
  obtain ⟨⟨d, factor'⟩, hmem, rfl⟩ :=
    List.mem_map.mp (hcasings (List.mem_flatMap_of_mem hletter (mem_casings c)))
  rw [hunits _ hmem] at h
  rwa [← Option.some.inj h]

theorem isBlank_of_mem_units (h : (c, factor) ∈ units) :
    isBlank c = false ∧ isDigit c = false := by
  have hall : ∀ unit ∈ units, isBlank unit.1 = false ∧ isDigit unit.1 = false := by decide
  exact hall _ h

theorem isEmpty_filterMap_digitValue? (hne : digits ≠ []) (hdigits : ∀ c ∈ digits, isDigit c) :
    (digits.filterMap digitValue?).isEmpty = false := by
  rw [List.isEmpty_eq_false_iff, ← List.length_pos_iff, length_filterMap_digitValue? hdigits]
  exact List.length_pos_iff.mpr hne

theorem sizeParts?_append {before rest : List Char} (hbefore : ∀ c ∈ before, isBlank c)
    (hne : digits ≠ []) (hdigits : ∀ c ∈ digits, isDigit c)
    (hstop : ∀ c ∈ rest.head?, isDigit c = false) :
    sizeParts? (before ++ (digits ++ rest)) =
      match rest.dropWhile isBlank with
      | [] => some (digits.filterMap digitValue?, 1)
      | c :: rest => (unit? c).bind fun factor =>
          if rest.all isBlank then some (digits.filterMap digitValue?, factor) else none := by
  have hblanks : (before ++ (digits ++ rest)).dropWhile isBlank = digits ++ rest := by
    refine dropWhile_append_of_stop hbefore fun c hc => isBlank_eq_false_of_isDigit (hdigits c ?_)
    rw [List.head?_append_of_ne_nil _ hne] at hc
    exact List.mem_of_head? hc
  simp only [sizeParts?, hblanks, takeWhile_append_of_stop hdigits hstop,
    dropWhile_append_of_stop hdigits hstop, isEmpty_filterMap_digitValue? hne hdigits]
  rfl

theorem IsSizeText.sizeParts?_eq (h : IsSizeText cs digits factor) :
    sizeParts? cs = some (digits.filterMap digitValue?, factor) := by
  cases h with
  | bare before digits after hbefore hne hdigits hafter =>
      have hstop : ∀ c ∈ after.head?, isDigit c = false := fun c hc =>
        isDigit_eq_false_of_isBlank (hafter c (List.mem_of_head? hc))
      rw [sizeParts?_append hbefore hne hdigits hstop, List.dropWhile_eq_nil_iff.mpr hafter]
  | withUnit before digits between letter after factor hbefore hne hdigits hbetween
      hunit hafter =>
      obtain ⟨hblank, hdigit⟩ := isBlank_of_mem_units hunit
      have hstop : ∀ c ∈ (between ++ letter :: after).head?, isDigit c = false := by
        intro c hc
        cases between with
        | nil =>
            obtain rfl := Option.some.inj hc
            exact hdigit
        | cons d ds =>
            obtain rfl := Option.some.inj hc
            exact isDigit_eq_false_of_isBlank (hbetween d List.mem_cons_self)
      have hrest : (between ++ letter :: after).dropWhile isBlank = letter :: after := by
        refine dropWhile_append_of_stop hbetween fun c hc => ?_
        obtain rfl := Option.some.inj hc
        exact hblank
      rw [sizeParts?_append hbefore hne hdigits hstop, hrest]
      dsimp only
      rw [unit?_eq_some_iff.mpr hunit, Option.bind_some, if_pos (List.all_eq_true.mpr hafter)]

theorem exists_of_sizeParts? {ds : List Nat} (h : sizeParts? cs = some (ds, factor)) :
    ∃ digits, IsSizeText cs digits factor ∧ ds = digits.filterMap digitValue? := by
  have hsplit (p : Char → Bool) (cs : List Char) :
      ∃ front, (∀ c ∈ front, p c) ∧ cs = front ++ cs.dropWhile p ∧ cs.takeWhile p = front :=
    ⟨cs.takeWhile p, fun _ => List.mem_takeWhile_imp, List.takeWhile_append_dropWhile.symm, rfl⟩
  obtain ⟨before, hbefore, hcs, -⟩ := hsplit isBlank cs
  obtain ⟨digits, hdigits, htail, htake⟩ := hsplit isDigit (cs.dropWhile isBlank)
  obtain ⟨between, hbetween, hrest, -⟩ :=
    hsplit isBlank ((cs.dropWhile isBlank).dropWhile isDigit)
  rw [sizeParts?, htake] at h
  rw [hcs, htail, hrest]
  split at h
  · cases h
  · rename_i hempty
    have hne : digits ≠ [] := by
      rintro rfl
      exact hempty rfl
    split at h
    · rename_i hend
      obtain ⟨rfl, rfl⟩ := Prod.mk.inj (Option.some.inj h)
      rw [hend, List.append_nil]
      exact ⟨digits, .bare before digits between hbefore hne hdigits hbetween, rfl⟩
    · rename_i letter after hletter
      obtain ⟨factor', hunit, h⟩ := Option.bind_eq_some_iff.mp h
      split at h
      · rename_i hafter
        obtain ⟨rfl, rfl⟩ := Prod.mk.inj (Option.some.inj h)
        rw [hletter]
        exact ⟨digits, .withUnit before digits between letter after factor' hbefore hne
          hdigits hbetween (unit?_eq_some_iff.mp hunit) (List.all_eq_true.mp hafter), rfl⟩
      · cases h

theorem IsSizeText.isDigit (h : IsSizeText cs digits factor) : ∀ c ∈ digits, isDigit c := by
  cases h with
  | bare _ _ _ _ _ hdigits _ => exact hdigits
  | withUnit _ _ _ _ _ _ _ _ hdigits _ _ _ => exact hdigits

theorem IsSizeText.sizeOfText_eq (h : IsSizeText s.toList digits factor) : sizeOfText s =
    if digitLimit < digits.length then .error (.number (.tooManyDigits digits.length))
    else .ok (decimal digits * factor : Nat) := by
  rw [sizeOfText, h.sizeParts?_eq]
  dsimp only
  rw [length_filterMap_digitValue? h.isDigit, decimal]

theorem sizeOfText_eq_ok_iff {n : Int} : sizeOfText s = .ok n ↔
    ∃ digits factor, IsSizeText s.toList digits factor ∧ digits.length ≤ digitLimit ∧
      n = (decimal digits * factor : Nat) := by
  constructor
  · intro h
    cases hparts : sizeParts? s.toList with
    | none =>
        rw [sizeOfText, hparts] at h
        cases h
    | some parts =>
        obtain ⟨digits, hsize, -⟩ := exists_of_sizeParts? hparts
        rw [hsize.sizeOfText_eq] at h
        split at h
        · cases h
        · rename_i hshort
          exact ⟨digits, parts.2, hsize, Nat.le_of_not_lt hshort, (Except.ok.inj h).symm⟩
  · rintro ⟨digits, factor, hsize, hshort, rfl⟩
    rw [hsize.sizeOfText_eq, if_neg (Nat.not_lt.mpr hshort)]

theorem sizeOfText_of_not (h : ¬ ∃ digits factor, IsSizeText s.toList digits factor) :
    sizeOfText s = .error (.option (.badSize s)) := by
  cases hparts : sizeParts? s.toList with
  | none => rw [sizeOfText, hparts]
  | some parts =>
      obtain ⟨digits, hsize, -⟩ := exists_of_sizeParts? hparts
      exact absurd ⟨digits, parts.2, hsize⟩ h

/-- A text is read as a size just if it is one and has no more digits than a number may have, and
then as the number of its digits times its unit.  A size with more digits is refused as a value,
and whatever is no size is refused as an option. -/
theorem size_exact (s : String) :
    (∀ n, size (.text s) = .ok n ↔ ∃ digits factor, IsSizeText s.toList digits factor ∧
        digits.length ≤ digitLimit ∧ n = (decimal digits * factor : Nat)) ∧
      ∀ fault, size (.text s) = .error fault →
        fault.family = .value ∧
            (∃ digits factor, IsSizeText s.toList digits factor ∧ digitLimit < digits.length) ∨
          fault.family = .option ∧ ¬ ∃ digits factor, IsSizeText s.toList digits factor := by
  have hread : size (.text s) = sizeOfText s := rfl
  rw [hread]
  refine ⟨fun n => sizeOfText_eq_ok_iff, fun fault h => ?_⟩
  by_cases hsize : ∃ digits factor, IsSizeText s.toList digits factor
  · obtain ⟨digits, factor, hdigits⟩ := hsize
    rw [hdigits.sizeOfText_eq] at h
    split at h
    · rename_i hlong
      rw [← Except.error.inj h]
      exact Or.inl ⟨rfl, digits, factor, hdigits, hlong⟩
    · cases h
  · rw [sizeOfText_of_not hsize] at h
    rw [← Except.error.inj h]
    exact Or.inr ⟨rfl, hsize⟩

/-- Digits of another script, and the Kelvin sign as a unit. -/
example :
    (size
      (.text (String.ofList [' ', Char.ofNat 0x661, '2', ' ', Char.ofNat 0x212A,
        '\n']))).toOption =
    some (12 * 1024) := by
  decide +kernel

end Config

end StorageLoad
