import StorageLoad.Proofs.Double.Order
import StorageLoad.Proofs.Selector

/-!
The place of a moment in a run.  It is a fraction, and that of a later moment is not less
(`fraction_mono`), rounding included.  Where whole numbers and doubles are compared with one
another, the duration has to be one that a double holds: a moment that is a double is set against
the duration as it is rounded, one that is a whole number is not.
-/

namespace StorageLoad

open Double

namespace Double

open Float.Model Float.Model.UnpackedFloat

variable {x y d : Float}

theorem isOrdered_of_quotient (h : IsOrdered (x / d)) : IsOrdered x ∧ IsOrdered d := by
  rw [IsOrdered, parts_div] at h
  constructor
  · intro hx
    rw [hx] at h
    exact h (settle_of_isCanonical .notANumber)
  · intro hd
    rw [hd] at h
    apply h
    cases parts x <;> exact settle_of_isCanonical .notANumber

theorem rank_quotient_infinity {s : Sign} (hx : IsNumber (parts x)) (hd : parts d = .infinity s) :
    IsOrdered (x / d) ∧ rank (x / d) = 0 := by
  obtain ⟨t, ht⟩ : ∃ t, parts (x / d) = .zero t := by
    rw [parts_div, hd]
    generalize parts x = u at hx
    cases hx with
    | zero t => exact ⟨_, settle_of_isCanonical (.number (.zero _))⟩
    | finite t m e hm => exact ⟨_, settle_of_isCanonical (.number (.zero _))⟩
  have hnumber : IsNumber (parts (x / d)) := by
    rw [ht]
    exact .zero t
  refine ⟨isOrdered_of_isNumber hnumber, ?_⟩
  rw [rank_of_isNumber hnumber, value, ht, worth_zero]

/-- A duration: neither below zero nor zero. -/
structure IsDuration (d : Float) : Prop where
  not_neg : ¬ d < 0.0
  not_zero : ¬ (d ≤ 0.0 ∧ 0.0 ≤ d)

theorem IsDuration.cases (h : IsDuration d) (hd : IsOrdered d) :
    (∃ s, parts d = .infinity s) ∨ IsNumber (parts d) ∧ 0 < value d := by
  rcases isInfinite_or_isNumber hd with hinfinite | hnumber
  · exact Or.inl hinfinite
  · refine Or.inr ⟨hnumber, ?_⟩
    have hneg := h.not_neg
    have hzero := h.not_zero
    rw [value_lt_iff hnumber isNumber_zero, value_zero] at hneg
    rw [value_le_iff hnumber isNumber_zero, value_le_iff isNumber_zero hnumber, value_zero]
      at hzero
    exact lt_of_not_ge fun hle => hzero ⟨hle, not_lt.mp hneg⟩

theorem rank_quotient_of_infinity (hx : parts x = .infinity .positive) (hd : IsNumber (parts d))
    (hpos : 0 < value d) : rank (x / d) = brink := by
  apply rank_of_infinity (s := .positive)
  rw [parts_div, hx]
  rw [value] at hpos
  generalize parts d = u at hd hpos
  cases hd with
  | zero t => exact absurd hpos (lt_irrefl 0)
  | finite t m e hm =>
      obtain rfl := eq_positive_of_worth_pos hpos
      exact settle_of_isCanonical (.infinity .positive)

theorem IsDuration.quotient_le (h : IsDuration d) (hx : 0.0 ≤ x) (hxy : x ≤ y)
    (hy : y / d < 1.0) :
    x / d ≤ y / d := by
  have hordered := (lt_iff_rank.mp hy).1
  rcases h.cases (isOrdered_of_quotient hordered).2 with ⟨s, hs⟩ | ⟨hnumber, hpos⟩
  · have hy' : IsNumber (parts y) := by
      rcases isInfinite_or_isNumber (isOrdered_of_quotient hordered).1 with ⟨t, ht⟩ | hy'
      · rw [IsOrdered, parts_div, ht, hs] at hordered
        exact absurd (settle_of_isCanonical .notANumber) hordered
      · exact hy'
    obtain ⟨hleft, hzero⟩ :=
      rank_quotient_infinity (isNumber_of_le_of_le isNumber_zero hy' hx hxy) hs
    obtain ⟨hright, hzero'⟩ := rank_quotient_infinity hy' hs
    exact le_iff_rank.mpr ⟨hleft, hright, (hzero.trans hzero'.symm).le⟩
  · exact quotient_mono hnumber hpos hxy

theorem IsDuration.quotient_nonneg (h : IsDuration d) (hx : 0.0 ≤ x) (hlt : x / d < 1.0) :
    0.0 ≤ x / d := by
  have hzero : 0.0 ≤ 0.0 / d := by
    have hordered := (isOrdered_of_quotient (lt_iff_rank.mp hlt).1).2
    rcases h.cases hordered with ⟨s, hs⟩ | ⟨hnumber, hpos⟩
    · obtain ⟨hleft, hrank⟩ := rank_quotient_infinity isNumber_zero hs
      refine le_iff_rank.mpr ⟨isOrdered_of_isNumber isNumber_zero, hleft, ?_⟩
      rw [rank_of_isNumber isNumber_zero, value_zero, hrank]
    · refine isResult_zero_parts.le (isResult_quotient isNumber_zero hnumber hpos.ne') ?_
      rw [value_zero, zero_div]
  exact float_le_trans hzero (h.quotient_le isFraction_zero.le_refl hx hlt)

end Double

namespace Selector

/-- A duration that a double holds as it is. -/
def IsHeld : Quantity Float → Prop
  | .whole k => ∃ d, Double.ofInt k = .ok d ∧ value d = k
  | .real _ => True

/-- Moments of a run one after the other, or the same.  A whole number and a double are compared
as they are. -/
inductive IsLater (duration : Quantity Float) : Quantity Float → Quantity Float → Prop
  | whole {m n : Int} (h : m ≤ n) : IsLater duration (.whole m) (.whole n)
  | real {x y : Float} (h : x ≤ y) : IsLater duration (.real x) (.real y)
  | wholeReal {m : Int} {y : Float} (hheld : IsHeld duration) (hy : IsNumber (parts y))
      (h : m ≤ value y) :
      IsLater duration (.whole m) (.real y)
  | realWhole {x : Float} {n : Int} (hheld : IsHeld duration) (hx : IsNumber (parts x))
      (h : value x ≤ n) :
      IsLater duration (.real x) (.whole n)
  | endless {m : Int} {y : Float} (hheld : IsHeld duration) (hy : parts y = .infinity .positive) :
      IsLater duration (.whole m) (.real y)

/-- At most one. -/
def capped (x : Float) : Float :=
  if x < 1.0 then x else 1.0

section Capped

variable {x y : Float}

theorem isFraction_capped (h : x < 1.0 → 0.0 ≤ x) : IsFraction (capped x) := by
  rw [capped]
  split
  · rename_i hlt
    exact isFraction_iff.mpr ⟨h hlt, float_le_of_lt hlt⟩
  · exact isFraction_one

theorem capped_le_capped (hx : x < 1.0 → 0.0 ≤ x) (h : y < 1.0 → x ≤ y) :
    capped x ≤ capped y := by
  by_cases hlt : y < 1.0
  · have hx' := float_lt_of_le_of_lt (h hlt) hlt
    rw [capped, capped, if_pos hlt, if_pos hx']
    exact h hlt
  · have hone : capped y = 1.0 := if_neg hlt
    rw [hone]
    exact (isFraction_iff.mp (isFraction_capped hx)).2

end Capped

variable {duration e e' : Quantity Float} {x y r r' f f' : Float}

theorem divide_eq_or (e duration : Quantity Float) :
    (∃ m k, e = .whole m ∧ duration = .whole k ∧ divide e duration = Double.quotient m k) ∨
      (∀ m k, e = .whole m → duration ≠ .whole k) ∧
        divide e duration = e.toReal >>= fun x => duration.toReal >>= fun d => .ok (x / d) := by
  cases e with
  | real x => exact Or.inr ⟨nofun, rfl⟩
  | whole m =>
      cases duration with
      | real d => exact Or.inr ⟨nofun, rfl⟩
      | whole k => exact Or.inl ⟨m, k, rfl, rfl, rfl⟩

theorem divide_cases (h : divide e duration = .ok r) :
    (∃ m k, e = .whole m ∧ duration = .whole k ∧ Double.quotient m k = .ok r) ∨
      (∀ m k, e = .whole m → duration ≠ .whole k) ∧
        ∃ x d, e.toReal = .ok x ∧ duration.toReal = .ok d ∧ r = x / d := by
  rcases divide_eq_or e duration with ⟨m, k, he, hd, heq⟩ | ⟨hnot, heq⟩
  · exact Or.inl ⟨m, k, he, hd, heq.symm.trans h⟩
  · rw [heq] at h
    cases hx : e.toReal with
    | error cause =>
        rw [hx] at h
        cases h
    | ok x =>
        cases hd : duration.toReal with
        | error cause =>
            rw [hx, hd] at h
            cases h
        | ok d =>
            rw [hx, hd] at h
            exact Or.inr ⟨hnot, x, d, rfl, rfl, (Except.ok.inj h).symm⟩

/-- The faults of numbers that are too large. -/
inductive IsTooLarge : Fault → Prop
  | quotient : IsTooLarge (.number .quotientTooLarge)
  | real : IsTooLarge (.number .tooLargeForReal)

theorem isTooLarge_of_toReal {q : Quantity Float} {cause : NumberFault}
    (h : q.toReal = .error cause) :
    IsTooLarge (.number cause) := by
  cases q with
  | real x => cases h
  | whole n =>
      change Double.ofInt n = .error cause at h
      rw [Double.ofInt] at h
      split at h
      · obtain rfl := Except.error.inj h
        exact .real
      · cases h

theorem isTooLarge_of_divide {cause : NumberFault} (h : divide e duration = .error cause) :
    IsTooLarge (.number cause) := by
  rcases divide_eq_or e duration with ⟨m, k, -, -, heq⟩ | ⟨-, heq⟩
  · rw [heq, Double.quotient] at h
    split at h
    · obtain rfl := Except.error.inj h
      exact .quotient
    · cases h
  · rw [heq] at h
    cases hx : e.toReal with
    | error cause' =>
        rw [hx] at h
        obtain rfl := Except.error.inj h
        exact isTooLarge_of_toReal hx
    | ok x =>
        cases hd : duration.toReal with
        | error cause' =>
            rw [hx, hd] at h
            obtain rfl := Except.error.inj h
            exact isTooLarge_of_toReal hd
        | ok d =>
            rw [hx, hd] at h
            cases h

theorem fraction_eq (hsigns : (e.isNegative || duration.isNegative) = false) :
    fraction e duration = if duration.isZero then .ok 1.0
      else ((divide e duration).mapError Fault.number).map capped := by
  rw [fraction, hsigns, if_neg Bool.false_ne_true]
  split
  · rfl
  · cases divide e duration with
    | error cause => rfl
    | ok r => rfl

theorem not_negative_of_fraction (h : fraction e duration = .ok f) :
    e.isNegative = false ∧ duration.isNegative = false := by
  rw [← Bool.or_eq_false_iff]
  by_contra hsigns
  rw [Bool.not_eq_false] at hsigns
  rw [fraction, hsigns] at h
  cases h

theorem isNegative_whole_eq_false {n : Int} :
    Quantity.isNegative (𝕜 := Float) (.whole n) = false ↔ 0 ≤ n := by
  simp [Quantity.isNegative]

theorem isNegative_real_eq_false : (Quantity.real x).isNegative = false ↔ ¬ x < 0.0 :=
  decide_eq_false_iff_not

theorem IsLater.not_negative (h : IsLater duration e e') (he : e.isNegative = false) :
    e'.isNegative = false := by
  cases h with
  | whole h =>
      rw [isNegative_whole_eq_false] at he ⊢
      exact he.trans h
  | real h =>
      rw [isNegative_real_eq_false] at he ⊢
      exact fun hy => he (float_lt_of_le_of_lt h hy)
  | wholeReal hheld hy h =>
      rw [isNegative_whole_eq_false, ← Int.cast_nonneg_iff (R := ℚ)] at he
      rw [isNegative_real_eq_false, value_lt_iff hy isNumber_zero, value_zero, not_lt]
      exact he.trans h
  | realWhole hheld hx h =>
      rw [isNegative_real_eq_false, value_lt_iff hx isNumber_zero, value_zero, not_lt] at he
      rw [isNegative_whole_eq_false, ← Int.cast_nonneg_iff (R := ℚ)]
      exact he.trans h
  | endless hheld hy =>
      rw [isNegative_real_eq_false, lt_iff_rank, rank_of_infinity hy,
        rank_of_isNumber isNumber_zero, value_zero]
      rintro ⟨-, -, hlt⟩
      exact absurd brink_pos hlt.not_gt

theorem isTooLarge_of_fraction {fault : Fault} (h : IsLater duration e e')
    (hf : fraction e duration = .ok f) (hf' : fraction e' duration = .error fault) :
    IsTooLarge fault := by
  obtain ⟨he, hd⟩ := not_negative_of_fraction hf
  rw [fraction_eq (Bool.or_eq_false_iff.mpr ⟨h.not_negative he, hd⟩)] at hf'
  split at hf'
  · cases hf'
  · cases hdivide : divide e' duration with
    | ok r =>
        rw [hdivide] at hf'
        cases hf'
    | error cause =>
        rw [hdivide] at hf'
        obtain rfl := Except.error.inj hf'
        exact isTooLarge_of_divide hdivide

theorem nonneg_of_toReal (he : e.isNegative = false) (h : e.toReal = .ok x) (hx : IsOrdered x) :
    0.0 ≤ x := by
  cases e with
  | whole n =>
      rw [isNegative_whole_eq_false] at he
      exact isResult_zero_parts.le (isResult_ofInt h).2 (Int.cast_nonneg he)
  | real y =>
      rw [isNegative_real_eq_false] at he
      obtain rfl := Except.ok.inj h
      exact (float_le_iff_not_lt (isOrdered_of_isNumber isNumber_zero) hx).mpr he

theorem pos_of_isZero_eq_false {k : Int}
    (hneg : Quantity.isNegative (𝕜 := Float) (.whole k) = false)
    (hzero : Quantity.isZero (𝕜 := Float) (.whole k) = false) : 0 < k := by
  rw [isNegative_whole_eq_false] at hneg
  exact lt_of_le_of_ne hneg (Ne.symm (of_decide_eq_false hzero))

theorem isDuration_of_toReal {d : Float} (hneg : duration.isNegative = false)
    (hzero : duration.isZero = false) (h : duration.toReal = .ok d) : IsDuration d := by
  cases duration with
  | real d' =>
      obtain rfl := Except.ok.inj h
      exact ⟨isNegative_real_eq_false.mp hneg, of_decide_eq_false hzero⟩
  | whole k =>
      obtain ⟨hnumber, hresult⟩ := isResult_ofInt h
      have hk : (1 : ℚ) ≤ k := by
        exact_mod_cast Int.add_one_le_iff.mpr (pos_of_isZero_eq_false hneg hzero)
      have hone := isResult_one_parts.le hresult hk
      rw [value_le_iff isNumber_one hnumber, value_one] at hone
      constructor
      · rw [value_lt_iff hnumber isNumber_zero, value_zero]
        linarith
      · rw [value_le_iff hnumber isNumber_zero, value_zero]
        exact fun h => absurd h.1 (by linarith)

theorem divide_nonneg (he : e.isNegative = false) (hneg : duration.isNegative = false)
    (hzero : duration.isZero = false) (h : divide e duration = .ok r) (hlt : r < 1.0) :
    0.0 ≤ r := by
  rcases divide_cases h with ⟨m, k, rfl, rfl, hquotient⟩ | ⟨-, x, d, hx, hd, rfl⟩
  · have hm := isNegative_whole_eq_false.mp he
    have hk := pos_of_isZero_eq_false hneg hzero
    refine isResult_zero_parts.le (isResult_ratio hm hk hquotient).2 ?_
    exact div_nonneg (Int.cast_nonneg hm) (Int.cast_nonneg hk.le)
  · have hordered := (isOrdered_of_quotient (lt_iff_rank.mp hlt).1).1
    exact (isDuration_of_toReal hneg hzero hd).quotient_nonneg
      (nonneg_of_toReal he hx hordered) hlt

theorem IsLater.toReal_le (h : IsLater duration e e') (hx : e.toReal = .ok x)
    (hy : e'.toReal = .ok y) :
    x ≤ y := by
  cases h with
  | whole h => exact (isResult_ofInt hx).2.le (isResult_ofInt hy).2 (Int.cast_le.mpr h)
  | real h =>
      obtain rfl := Except.ok.inj hx
      obtain rfl := Except.ok.inj hy
      exact h
  | wholeReal hheld hnumber h =>
      obtain rfl := Except.ok.inj hy
      exact (isResult_ofInt hx).2.le (isResult_value hnumber) h
  | realWhole hheld hnumber h =>
      obtain rfl := Except.ok.inj hx
      exact (isResult_value hnumber).le (isResult_ofInt hy).2 h
  | endless hheld hinfinity =>
      obtain rfl := Except.ok.inj hy
      have hnumber := (isResult_ofInt hx).1
      refine le_iff_rank.mpr ⟨isOrdered_of_isNumber hnumber, ?_, ?_⟩
      · rw [IsOrdered, hinfinity]
        rintro ⟨⟩
      · rw [rank_of_infinity hinfinity]
        exact (abs_le.mp (abs_rank_le x)).2

theorem isNumber_of_isHeld {k : Int} {d : Float} (hheld : IsHeld (.whole k))
    (hd : (Quantity.whole k).toReal = .ok d) :
    IsNumber (parts d) ∧ value d = k := by
  obtain ⟨d', hd', hvalue⟩ := hheld
  obtain rfl : d' = d := Except.ok.inj (hd'.symm.trans hd)
  exact ⟨(isResult_ofInt hd).1, hvalue⟩

section Held

variable {m k : Int} {d : Float}

/-- Over a duration that a double holds, a share is rounded only once. -/
theorem isResult_share (hheld : IsHeld (.whole k)) (hk : 0 < k)
    (hd : (Quantity.whole k).toReal = .ok d) (hx : IsNumber (parts x)) :
    IsResult (value x / k) (parts (x / d)) := by
  obtain ⟨hnumber, hvalue⟩ := isNumber_of_isHeld hheld hd
  have hne : value d ≠ 0 := by
    rw [hvalue]
    exact (Int.cast_pos.mpr hk).ne'
  rw [← hvalue]
  exact isResult_quotient hx hnumber hne

theorem IsLater.whole_share_le (h : IsLater (.whole k) (.whole m) (.real y)) (hk : 0 < k)
    (hd : (Quantity.whole k).toReal = .ok d) (hr : IsResult ((m : ℚ) / k) (parts r))
    (hlt : y / d < 1.0) :
    r ≤ y / d := by
  have hpos : (0 : ℚ) < k := Int.cast_pos.mpr hk
  cases h with
  | wholeReal hheld hy h =>
      exact hr.le (isResult_share hheld hk hd hy) (div_le_div_of_nonneg_right h hpos.le)
  | endless hheld hinfinity =>
      obtain ⟨hnumber, hvalue⟩ := isNumber_of_isHeld hheld hd
      refine le_iff_rank.mpr ⟨hr.ne_notANumber, (lt_iff_rank.mp hlt).1, ?_⟩
      rw [rank_quotient_of_infinity hinfinity hnumber (hvalue ▸ hpos)]
      exact (abs_le.mp (abs_rank_le r)).2

theorem IsLater.share_le_whole (h : IsLater (.whole k) (.real x) (.whole m)) (hk : 0 < k)
    (hd : (Quantity.whole k).toReal = .ok d) (hr : IsResult ((m : ℚ) / k) (parts r)) :
    x / d ≤ r := by
  have hpos : (0 : ℚ) < k := Int.cast_pos.mpr hk
  cases h with
  | realWhole hheld hx h =>
      exact (isResult_share hheld hk hd hx).le hr (div_le_div_of_nonneg_right h hpos.le)

end Held

theorem IsLater.divide_le (h : IsLater duration e e') (he : e.isNegative = false)
    (hneg : duration.isNegative = false) (hzero : duration.isZero = false)
    (hr : divide e duration = .ok r) (hr' : divide e' duration = .ok r') (hlt : r' < 1.0) :
    r ≤ r' := by
  have he' := h.not_negative he
  -- Only whole numbers over a whole number are divided before they are rounded.
  rcases divide_cases hr with ⟨m, k, rfl, rfl, hquotient⟩ | ⟨hnot, x, d, hx, hd, rfl⟩
  · have hm := isNegative_whole_eq_false.mp he
    have hk := pos_of_isZero_eq_false hneg hzero
    have hresult := (isResult_ratio hm hk hquotient).2
    rcases divide_cases hr' with ⟨n, k', rfl, heq, hquotient'⟩ | ⟨hnot, y, d, hy, hd, rfl⟩
    · obtain rfl := Quantity.whole.inj heq
      have hresult' := (isResult_ratio (isNegative_whole_eq_false.mp he') hk hquotient').2
      cases h with
      | whole h =>
          exact hresult.le hresult'
            (div_le_div_of_nonneg_right (Int.cast_le.mpr h) (Int.cast_nonneg hk.le))
    · cases e' with
      | whole n => exact absurd rfl (hnot _ _ rfl)
      | real y' =>
          obtain rfl := Except.ok.inj hy
          exact h.whole_share_le hk hd hresult hlt
  · rcases divide_cases hr' with ⟨n, k, rfl, rfl, hquotient⟩ | ⟨-, y, d', hy, hd', rfl⟩
    · have hk := pos_of_isZero_eq_false hneg hzero
      have hresult := (isResult_ratio (isNegative_whole_eq_false.mp he') hk hquotient).2
      cases e with
      | whole m => exact absurd rfl (hnot _ _ rfl)
      | real x' =>
          obtain rfl := Except.ok.inj hx
          exact h.share_le_whole hk hd hresult
    · obtain rfl := Except.ok.inj (hd.symm.trans hd')
      have hduration := isDuration_of_toReal hneg hzero hd
      have hxy := h.toReal_le hx hy
      exact hduration.quotient_le (nonneg_of_toReal he hx (le_iff_rank.mp hxy).1) hxy hlt

/-- The place of a moment is a fraction, and that of a later one is not less. -/
theorem fraction_mono (h : IsLater duration e e') (hf : fraction e duration = .ok f)
    (hf' : fraction e' duration = .ok f') : IsFraction f ∧ IsFraction f' ∧ f ≤ f' := by
  obtain ⟨he, hneg⟩ := not_negative_of_fraction hf
  have he' := h.not_negative he
  rw [fraction_eq (Bool.or_eq_false_iff.mpr ⟨he, hneg⟩)] at hf
  rw [fraction_eq (Bool.or_eq_false_iff.mpr ⟨he', hneg⟩)] at hf'
  cases hzero : duration.isZero with
  | true =>
      rw [hzero] at hf hf'
      obtain rfl := Except.ok.inj hf
      obtain rfl := Except.ok.inj hf'
      exact ⟨isFraction_one, isFraction_one, isFraction_one.le_refl⟩
  | false =>
      rw [hzero, if_neg Bool.false_ne_true] at hf hf'
      cases hr : divide e duration with
      | error cause =>
          rw [hr] at hf
          cases hf
      | ok r =>
          cases hr' : divide e' duration with
          | error cause =>
              rw [hr'] at hf'
              cases hf'
          | ok r' =>
              rw [hr] at hf
              rw [hr'] at hf'
              obtain rfl := Except.ok.inj hf
              obtain rfl := Except.ok.inj hf'
              have hnonneg := divide_nonneg he hneg hzero hr
              have hnonneg' := divide_nonneg he' hneg hzero hr'
              exact ⟨isFraction_capped hnonneg, isFraction_capped hnonneg',
                capped_le_capped hnonneg (h.divide_le he hneg hzero hr hr')⟩

end Selector

end StorageLoad
