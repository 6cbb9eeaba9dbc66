import StorageLoad.Proofs.Config.Faults
import StorageLoad.Proofs.Config.Sizes

/-!
The spellings of ranges.  Two ends make the same range, or are refused alike, as a text, as a list
and as a tuple, and a single one stands for both; what is written of a range is read as that range
(`range_exact`).
-/

namespace StorageLoad

namespace Literal

open Text

theorem comma_not_mem_toString (n : Int) : ',' ∉ (toString n).toList := by
  have hdigits : ',' ∉ Nat.toDigits 10 n.natAbs := fun hmem =>
    absurd (isDigit_of_mem_toDigits ',' hmem) (by decide)
  rw [toList_toString, List.mem_append, not_or]
  refine ⟨?_, hdigits⟩
  split <;> decide

theorem decimal_toDigits (n : Nat) : decimal (Nat.toDigits 10 n) = n := by
  have hvalues : ∀ c ∈ Nat.toDigits 10 n, digitValue? c = some (c.toNat - 48) := fun c hc =>
    digitValue?_of_isDigit (isDigit_of_mem_toDigits c hc)
  rw [decimal, List.filterMap_eq_map_iff_forall_eq_some.mpr hvalues, digitsValue_map,
    Nat.ofDigitChars_ten_toDigits]

end Literal

theorem Value.exists_toText? {v : Value} (h : v.hasOversized = false) :
    ∃ s, v.toText? = .ok s := by
  unfold toText?
  split
  · exact ⟨_, rfl⟩
  · exact exists_quoted? h

namespace Config

open Text Literal

variable {parse : Value → Outcome Int} {minimum a b n : Int} {v w w' : Value} {r : Range}

/-- A reader takes an integer, and the text of that integer, for it. -/
structure Takes (parse : Value → Outcome Int) (n : Int) : Prop where
  int : parse (.int n) = .ok n
  text : parse (.text (toString n)) = .ok n

theorem takes_integer (h : Value.isOversized n = false) : Takes integer n where
  int := rfl
  text := congrArg (Except.mapError Fault.number) (integer_toString h)

theorem isSizeText_toString (hn : 0 ≤ n) :
    IsSizeText (toString n).toList (Nat.toDigits 10 n.natAbs) 1 := by
  have hdigits : ∀ c ∈ Nat.toDigits 10 n.natAbs, isDigit c := by
    intro c hc
    rw [isDigit, digitValue?_of_isDigit (isDigit_of_mem_toDigits c hc)]
    rfl
  have hbare :=
    IsSizeText.bare [] (Nat.toDigits 10 n.natAbs) [] (by simp) Nat.toDigits_ne_nil
      hdigits (by simp)
  rw [toList_toString, if_neg (Int.not_lt.mpr hn)]
  rwa [List.append_nil] at hbare

theorem takes_size (h : Value.isOversized n = false) (hn : 0 ≤ n) : Takes size n where
  int := rfl
  text := by
    have hshort := length_toDigits_le (Nat.not_le.mp (of_decide_eq_false h))
    change sizeOfText (toString n) = _
    rw [(isSizeText_toString hn).sizeOfText_eq, if_neg (Nat.not_lt.mpr hshort), decimal_toDigits,
      Nat.mul_one, Int.natAbs_of_nonneg hn]

theorem size_toString_of_neg (hn : n < 0) :
    size (.text (toString n)) = .error (.option (.badSize (toString n))) := by
  have hminus : '-' ∈ (toString n).toList := by
    rw [toList_toString, if_pos hn]
    exact List.mem_cons_self
  change sizeOfText (toString n) = _
  rw [sizeOfText, sizeParts?_of_isForeign hminus (by decide)]

theorem rangeEnds_pair (a b : Int) : rangeEnds (.text (toString a ++ "," ++ toString b)) =
    [.text (toString a), .text (toString b)] := by
  have hlist : (toString a ++ "," ++ toString b).toList = (toString a).toList ++ ',' ::
      (toString b).toList := by
    rw [String.toList_append, String.toList_append, List.append_assoc]
    rfl
  rw [rangeEnds, hlist, splitAll_append_sep, splitAll_of_not_mem (comma_not_mem_toString a),
    splitAll_of_not_mem (comma_not_mem_toString b)]
  simp

theorem rangeEnds_single (a : Int) : rangeEnds (.text (toString a)) = [.text (toString a)] := by
  rw [rangeEnds, splitAll_of_not_mem (comma_not_mem_toString a)]
  simp

/-- The range between two ends that are in order and not below the minimum, and else a refused
option. -/
def IsRangeOf (minimum a b : Int) (answer : Outcome Range) : Prop :=
  if h : minimum ≤ a ∧ a ≤ b then answer = .ok ⟨a, b, h.2⟩
  else ∃ fault, answer = .error fault ∧ fault.family = .option

theorem isRangeOf_range (hends : twoEnds? (rangeEnds v) = some (w, w')) (ha : parse w = .ok a)
    (hb : parse w' = .ok b) (htext : ∃ s, v.toText? = .ok s)
    (hminimum : Value.isOversized minimum = false) (hshort : Value.isOversized a = false)
    (hshort' : Value.isOversized b = false) :
    IsRangeOf minimum a b (range parse minimum v) := by
  obtain ⟨s, hs⟩ := htext
  have hrange : range parse minimum v =
      if a <
        minimum then (do throw (Fault.writing [minimum]
          (.option (.rangeTooLow (← v.toText?) minimum))))
      else Range.between a b := by
    rw [range, hends]
    dsimp only
    rw [ha, hb]
    rfl
  rw [IsRangeOf, hrange]
  by_cases hlow : a < minimum
  · have hwritten := Fault.writing_eq (List.forall_mem_singleton.mpr hminimum)
    rw [if_pos hlow, dif_neg (fun h => absurd h.1 (Int.not_le.mpr hlow)), hs]
    exact ⟨_, rfl, congrArg Fault.family (hwritten _)⟩
  · rw [if_neg hlow, Range.between]
    by_cases horder : a ≤ b
    · rw [dif_pos ⟨Int.not_lt.mp hlow, horder⟩, dif_pos horder]
    · have hwritten :=
        Fault.writing_eq
          (List.forall_mem_cons.mpr ⟨hshort, List.forall_mem_singleton.mpr hshort'⟩)
      rw [dif_neg (fun h => horder h.2), dif_neg horder]
      exact ⟨_, rfl, congrArg Fault.family (hwritten _)⟩

/-- The values that spell a range with two ends. -/
def spellings (a b : Int) : List Value :=
  [.text (toString a ++ "," ++ toString b), .list [.int a, .int b], .tuple [.int a, .int b]]

/-- The values that spell a range with one end. -/
def singleSpellings (a : Int) : List Value :=
  [.int a, .text (toString a), .list [.int a], .tuple [.int a]]

theorem isRangeOf_spellings (ha : Takes parse a) (hb : Takes parse b)
    (hminimum : Value.isOversized minimum = false) (hshort : Value.isOversized a = false)
    (hshort' : Value.isOversized b = false) :
    ∀ v ∈ spellings a b, IsRangeOf minimum a b (range parse minimum v) := by
  have hwritten : ∀ v ∈ spellings a b, v.hasOversized = false := by
    simp [spellings, Value.hasOversized, Value.anyOversized, hshort, hshort']
  intro v hv
  have htext := Value.exists_toText? (hwritten v hv)
  simp only [spellings, List.mem_cons, List.not_mem_nil, or_false] at hv
  rcases hv with rfl | rfl | rfl
  · have hends := congrArg twoEnds? (rangeEnds_pair a b)
    exact isRangeOf_range hends ha.text hb.text htext hminimum hshort hshort'
  · exact isRangeOf_range rfl ha.int hb.int htext hminimum hshort hshort'
  · exact isRangeOf_range rfl ha.int hb.int htext hminimum hshort hshort'

theorem isRangeOf_singleSpellings (ha : Takes parse a)
    (hminimum : Value.isOversized minimum = false) (hshort : Value.isOversized a = false) :
    ∀ v ∈ singleSpellings a, IsRangeOf minimum a a (range parse minimum v) := by
  have hwritten : ∀ v ∈ singleSpellings a, v.hasOversized = false := by
    simp [singleSpellings, Value.hasOversized, Value.anyOversized, hshort]
  intro v hv
  have htext := Value.exists_toText? (hwritten v hv)
  simp only [singleSpellings, List.mem_cons, List.not_mem_nil, or_false] at hv
  rcases hv with rfl | rfl | rfl | rfl
  · exact isRangeOf_range rfl ha.int ha.int htext hminimum hshort hshort
  · have hends := congrArg twoEnds? (rangeEnds_single a)
    exact isRangeOf_range hends ha.text ha.text htext hminimum hshort hshort
  · exact isRangeOf_range rfl ha.int ha.int htext hminimum hshort hshort
  · exact isRangeOf_range rfl ha.int ha.int htext hminimum hshort hshort

theorem range_text (hlower : Takes parse r.lower) (hupper : Takes parse r.upper)
    (hle : minimum ≤ r.lower) (hminimum : Value.isOversized minimum = false)
    (hshort : Value.isOversized r.lower = false) (hshort' : Value.isOversized r.upper = false) :
    range parse minimum (.text r.text) = .ok r := by
  have hrange := isRangeOf_spellings hlower hupper hminimum hshort hshort' _ List.mem_cons_self
  rwa [IsRangeOf, dif_pos ⟨hle, r.ordered⟩] at hrange

/-- The ends that a reader can be given as integers and as texts alike. -/
def IsReadable (parse : Value → Outcome Int) (n : Int) : Prop :=
  Value.isOversized n = false ∧ (parse = integer ∨ parse = size ∧ 0 ≤ n)

theorem IsReadable.takes (h : IsReadable parse n) : Takes parse n := by
  obtain ⟨hshort, rfl | ⟨rfl, hn⟩⟩ := h
  · exact takes_integer hshort
  · exact takes_size hshort hn

/-- Two ends spell the same range, or are refused alike, in all ways to give them, and so does a
single end in the place of two.  What is written of a range is read as that range, by the reader
of sizes just if it is not negative.  Whatever is read as a range has its ends in order, and the
lower is not below the minimum. -/
theorem range_exact (minimum : Int) :
    (Value.isOversized minimum = false → ∀ parse a b, IsReadable parse a → IsReadable parse b →
        (∀ v ∈ spellings a b, IsRangeOf minimum a b (range parse minimum v)) ∧
          ∀ v ∈ singleSpellings a, IsRangeOf minimum a a (range parse minimum v)) ∧
      (Value.isOversized minimum = false → ∀ r : Range, Value.isOversized r.lower = false →
        Value.isOversized r.upper = false → minimum ≤ r.lower →
          ∃ text, r.text? = .ok text ∧ range integer minimum (.text text) = .ok r ∧
            (range size minimum (.text text) = .ok r ↔ 0 ≤ r.lower)) ∧
      ∀ v r, range integer minimum v = .ok r ∨ range size minimum v = .ok r →
        minimum ≤ r.lower ∧ r.lower ≤ r.upper := by
  refine ⟨fun hminimum parse a b ha hb => ?_, fun hminimum r hshort hshort' hle => ?_,
    fun v r h => ?_⟩
  · exact ⟨isRangeOf_spellings ha.takes hb.takes hminimum ha.1 hb.1,
      isRangeOf_singleSpellings ha.takes hminimum ha.1⟩
  · have htext : r.text? = .ok r.text := by
      rw [Range.text?, hshort, hshort']
      rfl
    refine ⟨r.text, htext, ?_, fun h => ?_, fun hlower => ?_⟩
    · exact range_text (takes_integer hshort) (takes_integer hshort') hle hminimum hshort hshort'
    · by_contra hnegative
      obtain ⟨w, w', hends, hread, -, -⟩ := exists_of_range h
      have hboth := hends.symm.trans (congrArg twoEnds? (rangeEnds_pair r.lower r.upper))
      obtain ⟨rfl, -⟩ := Prod.mk.inj (Option.some.inj hboth)
      rw [size_toString_of_neg (Int.not_le.mp hnegative)] at hread
      cases hread
    · exact range_text (takes_size hshort hlower)
        (takes_size hshort' (Int.le_trans hlower r.ordered)) hle hminimum hshort hshort'
  · rcases h with h | h
    · exact ⟨le_of_range h, r.ordered⟩
    · exact ⟨le_of_range h, r.ordered⟩

/-- From minus two to seven: a range for the reader of integers, though its text is none for the
reader of sizes, which refuses ends in the wrong order like any other. -/
theorem range_exact_signed :
    range integer (-3) (.tuple [.int (-2), .int 7]) = .ok ⟨-2, 7, by decide⟩ ∧
      (∃ fault, range size (-3) (.text "7,5") = .error fault ∧ fault.family = .option) ∧
      ∃ text, Range.text? ⟨-2, 7, by decide⟩ = .ok text ∧
        range integer (-3) (.text text) = .ok ⟨-2, 7, by decide⟩ ∧
        range size (-3) (.text text) ≠ .ok ⟨-2, 7, by decide⟩ := by
  have hshort (n : Int) (hn : n.natAbs ≤ 2 ^ 3) : Value.isOversized n = false :=
    Value.isOversized_of_le_two_pow (k := 3) (by decide) hn
  have hminimum : Value.isOversized (-3) = false := hshort (-3) (by decide)
  obtain ⟨hspellings, hwritten, -⟩ := range_exact (-3)
  refine ⟨?_, ?_, ?_⟩
  · have hends : IsReadable integer (-2) ∧ IsReadable integer 7 :=
      ⟨⟨hshort _ (by decide), Or.inl rfl⟩, hshort _ (by decide), Or.inl rfl⟩
    exact (hspellings hminimum integer (-2) 7 hends.1 hends.2).1 _ (by simp [spellings])
  · have hends : IsReadable size 7 ∧ IsReadable size 5 :=
      ⟨⟨hshort _ (by decide), Or.inr ⟨rfl, by decide⟩⟩, hshort _ (by decide),
        Or.inr ⟨rfl, by decide⟩⟩
    exact (hspellings hminimum size 7 5 hends.1 hends.2).1 _ List.mem_cons_self
  · obtain ⟨text, htext, hread, hsize⟩ :=
      hwritten hminimum ⟨-2, 7, by decide⟩ (hshort _ (by decide))
        (hshort _ (by decide)) (by decide)
    exact ⟨text, htext, hread, fun h => absurd (hsize.mp h) (by decide)⟩

end Config

end StorageLoad
