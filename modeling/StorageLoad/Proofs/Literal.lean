import Mathlib.Data.List.TakeWhile
import StorageLoad.Value.Basic

/-!
The text of an integer spells that integer (`integer_toString`).
-/

namespace StorageLoad

namespace Value

theorem isOversized_of_natAbs_le {m n : Int} (h : m.natAbs ≤ n.natAbs)
    (hn : isOversized n = false) :
    isOversized m = false := by
  have hlt := Nat.not_le.mp (of_decide_eq_false hn)
  exact decide_eq_false (Nat.not_le.mpr (Nat.lt_of_le_of_lt h hlt))

theorem isOversized_of_le_two_pow {n : Int} {k : Nat} (hk : k < digitLimit)
    (h : n.natAbs ≤ 2 ^ k) : isOversized n = false := by
  have hten : 2 ^ k ≤ 10 ^ k := Nat.pow_le_pow_left (by decide) k
  have hlimit : 10 ^ k < 10 ^ digitLimit := Nat.pow_lt_pow_right (by decide) hk
  exact decide_eq_false (Nat.not_le.mpr (Nat.lt_of_le_of_lt (Nat.le_trans h hten) hlimit))

end Value

namespace Text

theorem digitValue?_of_isDigit {c : Char} (h : c.isDigit) :
    digitValue? c = some (c.toNat - 48) := by
  obtain ⟨hlow, hhigh⟩ : 48 ≤ c.toNat ∧ c.toNat ≤ 57 := by
    simpa [Char.isDigit, UInt32.le_iff_toNat_le] using h
  have hzero : 48 ≤ c.toNat ∧ c.toNat < 48 + 10 := ⟨hlow, Nat.lt_succ_of_le hhigh⟩
  simp [digitValue?, digitZeros, hzero]

theorem isMargin_eq_false_of_isDigit {c : Char} (h : c.isDigit) : isMargin c = false := by
  obtain ⟨hlow, hhigh⟩ : 48 ≤ c.toNat ∧ c.toNat ≤ 57 := by
    simpa [Char.isDigit, UInt32.le_iff_toNat_le] using h
  have hspace : c ≠ ' ' := by
    rintro rfl
    exact absurd hlow (by decide)
  simp only [isMargin, isBlank, isPlainBlank, hspace]
  simp
  omega

end Text

namespace Literal

open Text

variable {cs : List Char}

theorem grouped?_of_isDigit (h : ∀ c ∈ cs, c.isDigit) {afterDigit : Bool}
    (hsome : afterDigit ∨ cs ≠ []) : grouped? afterDigit cs = some (cs.map (·.toNat - 48)) := by
  induction cs generalizing afterDigit with
  | nil => simpa [grouped?] using hsome
  | cons c cs ih =>
      obtain ⟨hc, hcs⟩ := List.forall_mem_cons.mp h
      have hne : c ≠ '_' := by
        rintro rfl
        cases hc
      rw [grouped?, if_neg hne, digitValue?_of_isDigit hc, Option.bind_some,
        ih hcs (Or.inl rfl)]
      rfl

theorem digitsValue_map (cs : List Char) :
    digitsValue (cs.map (·.toNat - 48)) = Nat.ofDigitChars 10 cs 0 := by
  rw [digitsValue, List.foldl_map, Nat.ofDigitChars_eq_foldl]
  rfl

theorem integer_of_digits {s : String} {negative : Bool} (hne : cs ≠ []) (h : ∀ c ∈ cs, c.isDigit)
    (hsign : sign (s.toList.dropWhile isMargin) = (negative, cs))
    (hshort : cs.length ≤ digitLimit) :
    integer s = .ok (if negative then -(Nat.ofDigitChars 10 cs 0 : Int)
      else Nat.ofDigitChars 10 cs 0) := by
  have hall : ∀ c ∈ cs, (isDigit c || c == '_') = true := by
    intro c hc
    rw [isDigit, digitValue?_of_isDigit (h c hc)]
    rfl
  have htake : cs.takeWhile (fun c => isDigit c || c == '_') = cs :=
    List.takeWhile_eq_self_iff.mpr hall
  have hdrop : cs.dropWhile (fun c => isDigit c || c == '_') = [] :=
    List.dropWhile_eq_nil_iff.mpr hall
  simp only [integer, hsign, htake, hdrop, grouped?_of_isDigit h (Or.inr hne), List.length_map,
    if_neg (Nat.not_lt.mpr hshort), digitsValue_map, List.all_nil, if_true]

theorem isDigit_of_mem_toDigits {n : Nat} : ∀ c ∈ Nat.toDigits 10 n, c.isDigit :=
  fun _ hc => Nat.isDigit_of_mem_toDigits (by decide) (by decide) hc

theorem length_toDigits_le {n : Nat} (h : n < 10 ^ digitLimit) :
    (Nat.toDigits 10 n).length ≤ digitLimit :=
  (Nat.length_toDigits_le_iff (by decide) (by decide)).mpr h

theorem dropWhile_isMargin (h : ∀ c ∈ cs, c.isDigit) : cs.dropWhile isMargin = cs := by
  cases cs with
  | nil => rfl
  | cons c cs =>
      have hc := isMargin_eq_false_of_isDigit (h c List.mem_cons_self)
      rw [List.dropWhile_cons_of_neg (by simp [hc])]

theorem sign_of_isDigit (h : ∀ c ∈ cs, c.isDigit) : sign cs = (false, cs) := by
  unfold sign
  split
  · exact absurd (h '-' List.mem_cons_self) (by decide)
  · exact absurd (h '+' List.mem_cons_self) (by decide)
  · rfl

theorem toList_toString (n : Int) :
    (toString n).toList = (if n < 0 then ['-'] else []) ++ Nat.toDigits 10 n.natAbs := by
  cases n with
  | ofNat n => exact Nat.toList_repr
  | negSucc n =>
      have hlist : (toString (Int.negSucc n)).toList = '-' :: (Nat.repr (n + 1)).toList :=
        String.toList_append
      rw [hlist, Nat.toList_repr, if_pos (Int.negSucc_lt_zero n)]
      rfl

theorem sign_toString (n : Int) :
    sign ((toString n).toList.dropWhile isMargin) =
      (decide (n < 0), Nat.toDigits 10 n.natAbs) := by
  rw [toList_toString]
  by_cases hn : n < 0
  · have hmargin : isMargin '-' = false := by decide
    rw [if_pos hn, List.singleton_append, List.dropWhile_cons_of_neg (by simp [hmargin]),
      decide_eq_true hn]
    rfl
  · rw [if_neg hn, List.nil_append, dropWhile_isMargin isDigit_of_mem_toDigits,
      sign_of_isDigit isDigit_of_mem_toDigits, decide_eq_false hn]

theorem integer_toString {n : Int} (h : Value.isOversized n = false) :
    integer (toString n) = .ok n := by
  have hshort := length_toDigits_le (Nat.not_le.mp (of_decide_eq_false h))
  rw [integer_of_digits Nat.toDigits_ne_nil isDigit_of_mem_toDigits (sign_toString n) hshort,
    Nat.ofDigitChars_ten_toDigits]
  by_cases hn : n < 0
  · rw [decide_eq_true hn, if_pos rfl, Int.ofNat_natAbs_of_nonpos (Int.le_of_lt hn), Int.neg_neg]
  · rw [decide_eq_false hn, if_neg Bool.false_ne_true, Int.natAbs_of_nonneg (Int.not_lt.mp hn)]

end Literal

end StorageLoad
