import Mathlib.Tactic.NormNum
import StorageLoad.Proofs.Double
import StorageLoad.Proofs.Double.Rounding

/-!
The numbers that doubles stand for.
-/

namespace StorageLoad.Double

open Float.Model Float.Model.UnpackedFloat

/-- A zero, or a number or an infinity with a sign. -/
inductive HasSign (s : Sign) : UnpackedFloat → Prop
  | zero (t : Sign) : HasSign s (.zero t)
  | finite (m : Nat) (e : Int) (hpos : 0 < m) : HasSign s (.finite s m e hpos)
  | infinity : HasSign s (.infinity s)

/-- What is not below zero, infinity included. -/
abbrev IsAmount : UnpackedFloat → Prop :=
  HasSign .positive

namespace HasSign

variable {s : Sign} {u v : UnpackedFloat}

theorem ofFields (power fraction : Nat) (h : Double.ofFields s power fraction ≠ .notANumber) :
    HasSign s (Double.ofFields s power fraction) := by
  rw [Double.ofFields] at h ⊢
  split
  · rename_i hfull
    rw [if_pos hfull] at h
    split
    · exact .infinity
    · rename_i hfraction
      rw [if_neg hfraction] at h
      exact absurd rfl h
  · split
    · split
      · exact .zero _
      · exact .finite _ _ _
    · exact .finite _ _ _

theorem settle (h : HasSign s u) : HasSign s (settle u) := by
  cases h with
  | zero t =>
      rw [settle_of_isNumber (.zero t)]
      exact .zero t
  | infinity =>
      rw [settle_of_isCanonical (.infinity s)]
      exact .infinity
  | finite m e hpos =>
      have hne : Double.settle (.finite s m e hpos) ≠ .notANumber := settle_ne_notANumber nofun
      rw [Double.settle, UnpackedFloat.pack] at hne ⊢
      dsimp only at hne ⊢
      split
      · have hinfinity : HasSign s (Double.settle (.infinity s)) := by
          rw [settle_of_isCanonical (.infinity s)]
          exact .infinity
        exact hinfinity
      · rename_i hbound
        rw [if_neg hbound] at hne
        split
        · rename_i hfull
          rw [if_pos hfull] at hne
          rw [unpack_packComponents] at hne ⊢
          exact .ofFields _ _ hne
        · rename_i hfull
          rw [if_neg hfull] at hne
          rw [unpack_packComponents] at hne ⊢
          exact .ofFields _ _ hne

theorem roundWithAccuracy (s : Sign) (m : Nat) (e : Int) (acc : Accuracy) :
    HasSign s (UnpackedFloat.roundWithAccuracy Format.binary64 s m e acc) := by
  rw [UnpackedFloat.roundWithAccuracy]
  dsimp only
  split
  · exact .zero _
  · exact .finite _ _ _

theorem normalize {m : Int} (hm : 0 ≤ m) (e : Int) :
    IsAmount (UnpackedFloat.normalize Format.binary64 m e .positive) := by
  rw [UnpackedFloat.normalize]
  split
  · rename_i h
    exact absurd (compare_lt_iff_lt.mp h) (not_lt.mpr hm)
  · exact .zero _
  · exact .roundWithAccuracy _ _ _ _

theorem normalize_of_neg {m : Int} (hm : m < 0) (e : Int) :
    HasSign .negative (UnpackedFloat.normalize Format.binary64 m e .positive) := by
  rw [UnpackedFloat.normalize, compare_lt_iff_lt.mpr hm]
  exact .roundWithAccuracy _ _ _ _

theorem add (hu : IsAmount u) (hv : IsAmount v) :
    IsAmount (UnpackedFloat.add Format.binary64 u v) := by
  cases hu with
  | zero s =>
      cases hv with
      | zero t =>
          rw [UnpackedFloat.add]
          split
          · exact .zero _
          · exact .zero _
      | finite n d hn => exact .finite _ _ _
      | infinity => exact .infinity
  | finite m e hm =>
      cases hv with
      | zero t => exact .finite _ _ _
      | finite n d hn => exact .normalize (Int.natCast_nonneg _) _
      | infinity => exact .infinity
  | infinity =>
      cases hv with
      | zero t => exact .infinity
      | finite n d hn => exact .infinity
      | infinity => exact .infinity

theorem mul (hu : IsAmount u) (hv : IsAmount v) (hunumber : IsNumber u) (hvnumber : IsNumber v) :
    IsAmount (UnpackedFloat.mul Format.binary64 u v) := by
  cases hu with
  | zero s =>
      cases hv with
      | zero t => exact .zero _
      | finite n d hn => exact .zero _
      | infinity => cases hvnumber
  | finite m e hm =>
      cases hv with
      | zero t => exact .zero _
      | finite n d hn => exact .roundWithAccuracy _ _ _ _
      | infinity => cases hvnumber
  | infinity => cases hunumber

theorem div (hu : IsAmount u) (hv : IsAmount v) (hne : worth v ≠ 0) :
    IsAmount (UnpackedFloat.div Format.binary64 u v) := by
  cases hv with
  | zero t => exact absurd rfl hne
  | infinity => exact absurd rfl hne
  | finite n d hn =>
      cases hu with
      | zero s => exact .zero _
      | finite m e hm => exact .roundWithAccuracy _ _ _ _
      | infinity => exact .infinity

theorem sub_of_not_le (hu : IsNumber u) (hv : IsAmount v)
    (h : IsCanonical v) (hlt : IsNumber v → worth u < worth v) :
    HasSign .negative (UnpackedFloat.sub Format.binary64 u v) := by
  cases hv with
  | infinity =>
      cases hu with
      | zero s => exact .infinity
      | finite s m e => exact .infinity
  | zero t =>
      have hneg := hlt (.zero t)
      cases hu with
      | zero s => exact absurd hneg (lt_irrefl 0)
      | finite s m e hm =>
          cases s with
          | negative => exact .finite m e hm
          | positive =>
              exact absurd hneg
                (not_lt.mpr (mul_nonneg (Nat.cast_nonneg m) (zpow_pos two_pos e).le))
  | finite n d hn =>
      have hv : IsNumber (.finite .positive n d hn) := by
        cases h with
        | number h => exact h
      have hneg := hlt hv
      cases hu with
      | zero s => exact .finite n d hn
      | finite s m e hm =>
          apply normalize_of_neg
          rw [worth_finite, worth_finite, ← cast_apply s (min_le_left e d),
            ← cast_apply .positive (min_le_right e d)] at hneg
          exact sub_neg_of_lt
            (Int.cast_lt.mp (lt_of_mul_lt_mul_right hneg (zpow_pos two_pos _).le))

theorem worth_nonneg (h : IsAmount u) : 0 ≤ worth u := by
  cases h with
  | zero s => exact le_rfl
  | finite m e hm => exact mul_nonneg (Nat.cast_nonneg m) (zpow_pos two_pos _).le
  | infinity => exact le_rfl

end HasSign

/-- The number that a finite double stands for. -/
def value (x : Float) : ℚ :=
  worth (parts x)

section Literals

theorem parts_zero : parts 0.0 = .zero .positive :=
  rfl

theorem parts_one : parts 1.0 = .finite .positive (2 ^ 52) (-52) (by decide) :=
  rfl

theorem parts_hundred : parts 100.0 = .finite .positive (100 * 2 ^ 46) (-46) (by decide) :=
  rfl

theorem parts_thousand : parts 1000.0 = .finite .positive (1000 * 2 ^ 43) (-43) (by decide) :=
  rfl

theorem value_zero : value 0.0 = 0 := by
  rw [value, parts_zero, worth_zero]

theorem value_one : value 1.0 = 1 := by
  rw [value, parts_one, worth_finite, signed, zpow_neg]
  norm_num

theorem value_hundred : value 100.0 = 100 := by
  rw [value, parts_hundred, worth_finite, signed, zpow_neg, Nat.cast_mul]
  norm_num

theorem value_hundred_ne_zero : value 100.0 ≠ 0 := by
  rw [value_hundred]
  norm_num

theorem value_thousand : value 1000.0 = 1000 := by
  rw [value, parts_thousand, worth_finite, signed, zpow_neg, Nat.cast_mul]
  norm_num

theorem isNumber_hundred : IsNumber (parts 100.0) := by
  rw [parts_hundred]
  exact .finite _ _ _ _ (by decide) (by decide) (by decide) (Or.inl (by decide))

theorem isNumber_thousand : IsNumber (parts 1000.0) := by
  rw [parts_thousand]
  exact .finite _ _ _ _ (by decide) (by decide) (by decide) (Or.inl (by decide))

theorem isAmount_hundred : IsAmount (parts 100.0) := by
  rw [parts_hundred]
  exact .finite _ _ _

theorem isAmount_thousand : IsAmount (parts 1000.0) := by
  rw [parts_thousand]
  exact .finite _ _ _

end Literals

theorem cast_quotient (m : Nat) (e : Int) :
    ((Shape.quotient m e).1 : ℚ) / (Shape.quotient m e).2 = m * 2 ^ e ∧
    0 < (Shape.quotient m e).2 := by
  rw [Shape.quotient]
  split
  · rename_i h
    refine ⟨?_, Nat.two_pow_pos _⟩
    have hexponent : e = -(e.natAbs : Int) := by omega
    conv_rhs => rw [hexponent, zpow_neg, zpow_natCast]
    push_cast
    rw [div_eq_mul_inv]
  · rename_i h
    refine ⟨?_, Nat.one_pos⟩
    have hexponent : e = (e.toNat : Int) := by omega
    conv_rhs => rw [hexponent, zpow_natCast]
    push_cast
    rw [div_one]

theorem quotient_zero (e : Int) : (Shape.quotient 0 e).1 = 0 := by
  rw [Shape.quotient]
  split
  · rfl
  · exact Nat.zero_mul _

section Conversions

variable {x : Float} {rule : Nat → Nat → Nat}

theorem exists_shape (h : isFinite x) : ∃ negative m e, shape x = .finite negative m e := by
  rw [isFinite] at h
  split at h
  · rename_i hshape
    exact ⟨_, _, _, hshape⟩
  · cases h

theorem value_of_shape {negative : Bool} {m : Nat} {e : Int}
    (h : shape x = .finite negative m e) :
    value x =
      ((if negative then -((Shape.quotient m e).1 : Int) else (Shape.quotient m e).1 : Int) : ℚ) /
      (Shape.quotient m e).2 := by
  rw [shape_eq] at h
  rw [value]
  generalize parts x = u at h
  cases u with
  | notANumber => cases h
  | infinity s => cases h
  | zero s =>
      obtain ⟨rfl, rfl, rfl⟩ := Shape.finite.inj h
      rw [quotient_zero, worth_zero]
      split
      · rw [Nat.cast_zero, neg_zero, Int.cast_zero, zero_div]
      · rw [Nat.cast_zero, Int.cast_zero, zero_div]
  | finite s m e hm =>
      obtain ⟨rfl, rfl, rfl⟩ := Shape.finite.inj h
      rw [worth_finite, ← (cast_quotient m e).1]
      cases s
      · change -(_ / _) = ((-_ : Int) : ℚ) / _
        push_cast
        rw [neg_div]
      · change _ / _ = ((_ : Int) : ℚ) / _
        push_cast
        rfl

theorem nonneg_of_toInt (hrule : ∀ den, rule 0 den = 0) (hamount : IsAmount (parts x)) {n : Int}
    (h : toInt rule x = .ok n) : 0 ≤ n := by
  rw [toInt, shape_eq] at h
  generalize parts x = u at h hamount
  cases hamount with
  | zero s =>
      obtain rfl := Except.ok.inj h
      rw [hrule]
      split
      · exact le_rfl
      · exact le_rfl
  | finite m e =>
      obtain rfl := Except.ok.inj h
      exact Int.natCast_nonneg _
  | infinity => cases h

theorem le_value_of_truncate (hamount : IsAmount (parts x)) {n : Int}
    (h : Reckoning.truncate x = .ok n) : (n : ℚ) ≤ value x := by
  change toInt (· / ·) x = .ok n at h
  rw [toInt, shape_eq] at h
  rw [value]
  generalize parts x = u at h hamount
  cases hamount with
  | zero s =>
      obtain rfl := Except.ok.inj h
      rw [Nat.zero_div, worth_zero]
      split
      · rfl
      · rfl
  | finite m e hm =>
      obtain rfl := Except.ok.inj h
      rw [worth_finite, signed, ← (cast_quotient m e).1]
      exact Nat.cast_div_le
  | infinity => cases h

theorem value_le_of_exceeds (hfinite : isFinite x) {n : Int} (h : exceeds x n = false) :
    value x ≤ n := by
  obtain ⟨negative, m, e, hshape⟩ := exists_shape hfinite
  rw [exceeds, hshape] at h
  rw [value_of_shape hshape, div_le_iff₀ (Nat.cast_pos.mpr (cast_quotient m e).2)]
  exact_mod_cast not_lt.mp (of_decide_eq_false h)

theorem isAmount_of_not_lt (hfinite : isFinite x) (h : ¬ x < 0.0) : IsAmount (parts x) := by
  rw [lt_iff, parts_zero] at h
  have hnumber := (isFinite_iff x).mp hfinite
  generalize parts x = u at h hnumber
  cases hnumber with
  | zero s => exact .zero s
  | finite s m e hm =>
      cases s with
      | negative => exact absurd rfl h
      | positive => exact .finite m e hm

theorem isAmount_of_pos (h : 0.0 < x) : IsAmount (parts x) := by
  rw [lt_iff, parts_zero] at h
  generalize parts x = u at h
  cases u with
  | notANumber => cases h
  | zero s => exact .zero s
  | infinity s =>
      cases s with
      | negative => cases h
      | positive => exact .infinity
  | finite s m e hm =>
      cases s with
      | negative => cases h
      | positive => exact .finite m e hm

theorem not_pos_of_hasSign (h : HasSign .negative (parts x)) : ¬ 0.0 < x := by
  rw [lt_iff, parts_zero]
  generalize parts x = u at h
  cases h with
  | zero s => nofun
  | finite m e hm => nofun
  | infinity => nofun

end Conversions

section Nearest

theorem two_zpow_lt_quotient {num den : Nat} (hnum : num ≠ 0) (hden : den ≠ 0) :
    (2 : ℚ) ^ ((num.log2 : Int) - den.log2 - 1) < (num : ℚ) / den ∧
      (num : ℚ) / den < 2 ^ ((num.log2 : Int) - den.log2 + 1) := by
  have hnum0 : ((2 ^ num.log2 : Nat) : ℚ) ≤ num := Nat.cast_le.mpr (Nat.log2_self_le hnum)
  have hnum1 : (num : ℚ) < (2 ^ (num.log2 + 1) : Nat) := Nat.cast_lt.mpr Nat.lt_log2_self
  have hden0 : ((2 ^ den.log2 : Nat) : ℚ) ≤ den := Nat.cast_le.mpr (Nat.log2_self_le hden)
  have hden1 : (den : ℚ) < (2 ^ (den.log2 + 1) : Nat) := Nat.cast_lt.mpr Nat.lt_log2_self
  have hpos : (0 : ℚ) < den := Nat.cast_pos.mpr (Nat.pos_of_ne_zero hden)
  push_cast at *
  rw [lt_div_iff₀ hpos, div_lt_iff₀ hpos]
  constructor
  · calc
      (2 : ℚ) ^ ((num.log2 : Int) - den.log2 - 1) * den <
          2 ^ ((num.log2 : Int) - den.log2 - 1) * 2 ^ (den.log2 + 1) := by gcongr
      _ = 2 ^ num.log2 := by
          rw [← zpow_natCast, ← zpow_add₀ two_ne_zero, ← zpow_natCast]
          congr 1
          push_cast
          ring
      _ ≤ num := hnum0
  · calc
      (num : ℚ) < 2 ^ (num.log2 + 1) := hnum1
      _ = 2 ^ ((num.log2 : Int) - den.log2 + 1) * 2 ^ den.log2 := by
          rw [← zpow_natCast, ← zpow_natCast, ← zpow_add₀ two_ne_zero]
          congr 1
          push_cast
          ring
      _ ≤ 2 ^ ((num.log2 : Int) - den.log2 + 1) * den := by gcongr

theorem roundToNearestEven_eq_halfEven (num : Nat) {den : Nat} (hden : 0 < den) :
    (accuracyOfFraction (num % den) den).roundToNearestEven (num / den) =
      Rounding.halfEven num den := by
  rw [accuracyOfFraction, Rounding.halfEven]
  split
  · rename_i hzero
    rw [hzero, if_pos (by omega)]
    rfl
  · rcases lt_trichotomy (2 * (num % den)) den with hless | hhalf | hmore
    · rw [compare_lt_iff_lt.mpr hless, if_pos hless]
      rfl
    · rw [compare_eq_iff_eq.mpr hhalf, if_neg (by omega), if_neg (by omega)]
      change num / den + num / den % 2 = _
      split
      · omega
      · omega
    · rw [compare_gt_iff_gt.mpr hmore, if_neg (by omega), if_pos hmore]
      rfl

theorem isNearest_halfEven (num : Nat) {den : Nat} (hden : 0 < den) :
    IsNearest ((num : ℚ) / den) (Rounding.halfEven num den) := by
  rw [← roundToNearestEven_eq_halfEven num hden]
  exact (LiesAt.of_division num hden).isNearest

/-- The mantissa of the grid of `2 ^ exponent` that is nearest to a quotient. -/
def gridMantissa (num den : Nat) (exponent : Int) : Nat :=
  if exponent < 0 then Rounding.halfEven (num * 2 ^ exponent.natAbs) den
  else Rounding.halfEven num (den * 2 ^ exponent.toNat)

theorem isNearest_gridMantissa (num : Nat) {den : Nat} (hden : 0 < den) (e : Int) :
    IsNearest ((num : ℚ) / den / 2 ^ e) (gridMantissa num den e) := by
  rw [gridMantissa]
  split
  · have hexponent : e = -(e.natAbs : Int) := by omega
    have hscaled : (num : ℚ) / den / 2 ^ e = ((num * 2 ^ e.natAbs : Nat) : ℚ) / den := by
      conv_lhs => rw [hexponent, zpow_neg, zpow_natCast]
      push_cast
      rw [div_inv_eq_mul, div_mul_eq_mul_div]
    rw [hscaled]
    exact isNearest_halfEven _ hden
  · have hexponent : e = (e.toNat : Int) := by omega
    have hscaled : (num : ℚ) / den / 2 ^ e = (num : ℚ) / ((den * 2 ^ e.toNat : Nat) : ℚ) := by
      conv_lhs => rw [hexponent, zpow_natCast]
      push_cast
      rw [div_div]
    rw [hscaled]
    exact isNearest_halfEven _ (Nat.mul_pos hden (Nat.two_pow_pos _))

/-- The exponent of the grid for a quotient. -/
def gridExponent (num den : Nat) : Int :=
  let gap : Int := (num.log2 : Int) - den.log2
  let small : Bool :=
    if gap < 0 then decide (num * 2 ^ gap.natAbs < den) else decide (num < den * 2 ^ gap.toNat)
  max (-1074) (gap - (if small then 53 else 52))

theorem nearestBits_eq {num den : Nat} (hnum : num ≠ 0) (hden : den ≠ 0) :
    nearestBits num den = min (
      if gridMantissa num den (gridExponent num den) < 2 ^ 52 then
        gridMantissa num den (gridExponent num den)
      else (gridExponent num den + 1075).toNat * 2 ^ 52 +
        (gridMantissa num den (gridExponent num den) - 2 ^ 52)) (2047 * 2 ^ 52) := by
  rw [nearestBits, if_neg (not_or.mpr ⟨hnum, hden⟩)]
  rfl

theorem quotient_lt_iff {num den : Nat} (hden : 0 < den) (e : Int) :
    (if e < 0 then decide (num * 2 ^ e.natAbs < den)
      else decide (num < den * 2 ^ e.toNat) : Bool) = true ↔
      (num : ℚ) / den < 2 ^ e := by
  have hpos : (0 : ℚ) < den := Nat.cast_pos.mpr hden
  rw [div_lt_iff₀ hpos]
  split
  · have hexponent : e = -(e.natAbs : Int) := by omega
    conv_rhs => rw [hexponent, zpow_neg, zpow_natCast, ← div_eq_inv_mul,
      lt_div_iff₀ (by positivity)]
    rw [decide_eq_true_iff]
    exact_mod_cast Iff.rfl
  · have hexponent : e = (e.toNat : Int) := by omega
    conv_rhs => rw [hexponent, zpow_natCast, mul_comm]
    rw [decide_eq_true_iff]
    exact_mod_cast Iff.rfl

theorem rounds_grid {num den : Nat} (hnum : num ≠ 0) (hden : den ≠ 0) :
    Rounds ((num : ℚ) / den) (gridMantissa num den (gridExponent num den))
      (gridExponent num den) := by
  have hnearest := isNearest_gridMantissa num (Nat.pos_of_ne_zero hden) (gridExponent num den)
  obtain ⟨hlow, hhigh⟩ := two_zpow_lt_quotient hnum hden
  have hsmall := @quotient_lt_iff num den (Nat.pos_of_ne_zero hden) ((num.log2 : Int) - den.log2)
  suffices hbounds : (num : ℚ) / den < 2 ^ (53 + gridExponent num den) ∧
      (gridExponent num den = -1074 ∨
        (2 : ℚ) ^ (52 + gridExponent num den) ≤ (num : ℚ) / den) from
    ⟨Int.le_max_left _ _, hbounds.1, hbounds.2, hnearest⟩
  rw [gridExponent]
  generalize (num.log2 : Int) - den.log2 = gap at *
  generalize (if gap < 0 then _ else _ : Bool) = small at *
  have hmono {a b : Int} (h : a ≤ b) : (2 : ℚ) ^ a ≤ 2 ^ b := zpow_le_zpow_right₀ one_le_two h
  cases small with
  | true =>
      have hlt := hsmall.mp rfl
      rw [if_pos rfl]
      refine ⟨hlt.trans_le (hmono (by omega)), ?_⟩
      by_cases hleast : gap - 53 ≤ -1074
      · exact Or.inl (max_eq_left hleast)
      · exact Or.inr ((hmono (by omega)).trans hlow.le)
  | false =>
      have hle := not_lt.mp (mt hsmall.mpr Bool.false_ne_true)
      rw [if_neg Bool.false_ne_true]
      refine ⟨hhigh.trans_le (hmono (by omega)), ?_⟩
      by_cases hleast : gap - 52 ≤ -1074
      · exact Or.inl (max_eq_left hleast)
      · exact Or.inr ((hmono (by omega)).trans hle)

theorem ofFields_of_grid (s : Sign) {m b : Nat} {e : Int} (hm : m ≤ 2 ^ 53) (he : -1074 ≤ e)
    (hnormal : 2 ^ 52 ≤ m ∨ e = -1074)
    (hb : b = if m < 2 ^ 52 then m else (e + 1075).toNat * 2 ^ 52 + (m - 2 ^ 52))
    (hsmall : b < 2047 * 2 ^ 52) :
    IsNumber (Double.ofFields s (b / 2 ^ 52) (b % 2 ^ 52)) ∧
      worth (Double.ofFields s (b / 2 ^ 52) (b % 2 ^ 52)) = signed s (m * 2 ^ e) := by
  have hpower : b / 2 ^ 52 ≠ 2047 := by omega
  rw [Double.ofFields, if_neg hpower]
  by_cases hlow : m < 2 ^ 52
  · obtain rfl : e = -1074 := hnormal.resolve_left (Nat.not_le.mpr hlow)
    rw [if_pos hlow] at hb
    obtain ⟨hdiv, hmod⟩ : b / 2 ^ 52 = 0 ∧ b % 2 ^ 52 = m := by omega
    rw [if_pos hdiv]
    simp only [hmod]
    split
    · rename_i hzero
      refine ⟨.zero s, ?_⟩
      rw [worth_zero, hzero, Nat.cast_zero, zero_mul, signed_zero]
    · exact ⟨.finite s m _ _ (by omega) (by decide) (by decide) (Or.inr rfl), worth_finite ..⟩
  · rw [if_neg hlow] at hb
    rw [if_neg (by omega)]
    by_cases hcarry : m = 2 ^ 53
    · obtain ⟨hdiv, hmod⟩ : ((b / 2 ^ 52 : Nat) : Int) - 1075 = e + 1 ∧
        2 ^ 52 + b % 2 ^ 52 = 2 ^ 52 := by
        omega
      simp only [hdiv, hmod]
      refine ⟨.finite s _ _ _ (by decide) (by omega) (by omega) (Or.inl le_rfl), ?_⟩
      rw [worth_finite, two_pow_mul_two_zpow_add_one, hcarry]
    · obtain ⟨hdiv, hmod⟩ : ((b / 2 ^ 52 : Nat) : Int) - 1075 = e ∧ 2 ^ 52 + b % 2 ^ 52 = m := by
        omega
      simp only [hdiv, hmod]
      exact ⟨.finite s m e _ (by omega) he (by omega) (Or.inl (by omega)), worth_finite ..⟩

theorem nearestBits_of_zero (den : Nat) : nearestBits 0 den = 0 := by
  rw [nearestBits, if_pos (Or.inl rfl)]

theorem nearestBits_lt_of_tooLarge {num den : Nat} (hlarge : tooLarge num den = false) :
    nearestBits num den < 2047 * 2 ^ 52 := by
  refine lt_of_le_of_ne ?_ (of_decide_eq_false hlarge)
  rw [nearestBits]
  split
  · exact Nat.zero_le _
  · exact min_le_right _ _

theorem isResult_nearestBits (s : Sign) {num den : Nat} (hden : den ≠ 0)
    (hlarge : tooLarge num den = false) :
    IsNumber (Double.ofFields s (nearestBits num den / 2 ^ 52) (nearestBits num den % 2 ^ 52)) ∧
      IsResult (signed s ((num : ℚ) / den))
        (Double.ofFields s (nearestBits num den / 2 ^ 52) (nearestBits num den % 2 ^ 52)) := by
  have hlt := nearestBits_lt_of_tooLarge hlarge
  by_cases hnum : num = 0
  · rw [hnum, nearestBits_of_zero, Nat.cast_zero, zero_div, signed_zero]
    exact ⟨.zero s, isResult_worth (.zero s)⟩
  · have heq := nearestBits_eq hnum hden
    rw [heq] at hlt
    rw [min_eq_left_of_lt ((min_lt_iff.mp hlt).resolve_right (lt_irrefl _))] at heq
    have hrounds := rounds_grid hnum hden
    have hnormal : 2 ^ 52 ≤ gridMantissa num den (gridExponent num den) ∨
        gridExponent num den = -1074 := by
      by_cases h : gridExponent num den = -1074
      · exact Or.inr h
      · exact Or.inl (hrounds.le_mantissa h)
    obtain ⟨hnumber, hworth⟩ := ofFields_of_grid s hrounds.mantissa_le hrounds.le hnormal heq
      (nearestBits_lt_of_tooLarge hlarge)
    have hquotient : (0 : ℚ) ≤ (num : ℚ) / den :=
      div_nonneg (Nat.cast_nonneg num) (Nat.cast_nonneg den)
    have hrounding := IsRounding.intro s hquotient hrounds
    rw [← hworth] at hrounding
    refine ⟨hnumber, .number hnumber, ?_, _, hrounding, ?_⟩
    · intro hnan
      rw [hnan] at hnumber
      cases hnumber
    · rw [place_of_isNumber hnumber, clamp_of_abs_lt (abs_worth_lt hnumber)]

theorem parts_nearest (negative : Bool) {num den : Nat} (hlarge : tooLarge num den = false) :
    parts (nearest negative num den) = Double.ofFields (if negative then .negative else .positive)
      (nearestBits num den / 2 ^ 52) (nearestBits num den % 2 ^ 52) := by
  have hlt := nearestBits_lt_of_tooLarge hlarge
  rw [nearest, parts_ofBits, UInt64.toNat_ofNat']
  generalize nearestBits num den = b at *
  cases negative with
  | false =>
      obtain ⟨hsign, hpower, hfraction⟩ : ((0 + b) % 2 ^ 64) / 2 ^ 63 = 0 ∧
          ((0 + b) % 2 ^ 64) / 2 ^ 52 % 2 ^ 11 = b / 2 ^ 52 ∧
          ((0 + b) % 2 ^ 64) % 2 ^ 52 = b % 2 ^ 52 := by
        omega
      simp only [Bool.false_eq_true, if_false]
      rw [hsign, hpower, hfraction]
      rfl
  | true =>
      obtain ⟨hsign, hpower, hfraction⟩ : ((2 ^ 63 + b) % 2 ^ 64) / 2 ^ 63 = 1 ∧
          ((2 ^ 63 + b) % 2 ^ 64) / 2 ^ 52 % 2 ^ 11 = b / 2 ^ 52 ∧
          ((2 ^ 63 + b) % 2 ^ 64) % 2 ^ 52 = b % 2 ^ 52 := by
        omega
      simp only [if_true]
      rw [hsign, hpower, hfraction]
      rfl

section Whole

variable {n : Int} {x : Float}

theorem isResult_ofInt (h : ofInt n = .ok x) : IsNumber (parts x) ∧ IsResult n (parts x) := by
  rw [ofInt] at h
  split at h
  · cases h
  · rename_i hlarge
    obtain rfl := Except.ok.inj h
    rw [parts_nearest _ (Bool.eq_false_iff.mpr hlarge)]
    have hresult :=
      isResult_nearestBits (if decide (n < 0) then .negative else .positive) one_ne_zero
        (Bool.eq_false_iff.mpr hlarge)
    have hexact : signed (if decide (n < 0) then .negative else .positive)
        ((n.natAbs : ℚ) / (1 : Nat)) = n := by
      rw [Nat.cast_one, div_one]
      by_cases hneg : n < 0
      · rw [decide_eq_true hneg, if_pos rfl, signed, Nat.cast_natAbs, abs_of_neg hneg,
          Int.cast_neg, neg_neg]
      · rw [decide_eq_false hneg, if_neg Bool.false_ne_true, signed, Nat.cast_natAbs,
          abs_of_nonneg (not_lt.mp hneg)]
    rwa [hexact] at hresult

theorem isResult_ratio {d : Int} (hn : 0 ≤ n) (hd : 0 < d) (h : Double.quotient n d = .ok x) :
    IsNumber (parts x) ∧ IsResult ((n : ℚ) / d) (parts x) := by
  rw [Double.quotient] at h
  split at h
  · cases h
  · rename_i hlarge
    obtain rfl := Except.ok.inj h
    rw [parts_nearest _ (Bool.eq_false_iff.mpr hlarge), decide_eq_false (not_lt.mpr hn),
      decide_eq_false (not_lt.mpr hd.le)]
    have hresult := isResult_nearestBits .positive (Int.natAbs_pos.mpr hd.ne').ne'
      (Bool.eq_false_iff.mpr hlarge)
    have hexact : signed .positive ((n.natAbs : ℚ) / d.natAbs) = n / d := by
      rw [signed, Nat.cast_natAbs, Nat.cast_natAbs, abs_of_nonneg hn, abs_of_pos hd]
    rwa [hexact] at hresult

theorem isNear_ofInt (h : ofInt n = .ok x) : IsNear n (parts x) :=
  (isResult_ofInt h).2.isNear_of_isNumber (isResult_ofInt h).1

theorem isAmount_ofInt (hn : 0 ≤ n) (h : ofInt n = .ok x) : IsAmount (parts x) := by
  have hnumber := (isNear_ofInt h).isNumber
  rw [ofInt, decide_eq_false (not_lt.mpr hn)] at h
  split at h
  · cases h
  · rename_i hlarge
    obtain rfl := Except.ok.inj h
    rw [parts_nearest _ (Bool.eq_false_iff.mpr hlarge)] at hnumber ⊢
    refine .ofFields _ _ fun hnan => ?_
    rw [if_neg Bool.false_ne_true, hnan] at hnumber
    cases hnumber

end Whole

end Nearest

section Amounts

variable {x y : Float} {xs : List Float}

theorem isAmount_add (hx : IsAmount (parts x)) (hy : IsAmount (parts y)) :
    IsAmount (parts (x + y)) := by
  rw [parts_add]
  exact (hx.add hy).settle

theorem isAmount_mul (hx : IsAmount (parts x)) (hy : IsAmount (parts y))
    (hxnumber : IsNumber (parts x)) (hynumber : IsNumber (parts y)) :
    IsAmount (parts (x * y)) := by
  rw [parts_mul]
  exact (hx.mul hy hxnumber hynumber).settle

theorem isAmount_div (hx : IsAmount (parts x)) (hy : IsAmount (parts y)) (hne : value y ≠ 0) :
    IsAmount (parts (x / y)) := by
  rw [parts_div]
  exact (hx.div hy hne).settle

theorem isNear_sum (hx : IsAmount (parts x)) (hy : IsAmount (parts y))
    (hxnumber : IsNumber (parts x)) (hynumber : IsNumber (parts y))
    (h : value x + value y ≤ overflowBound) :
    IsNear (value x + value y) (parts (x + y)) := by
  have hnonneg : 0 ≤ value x + value y := add_nonneg hx.worth_nonneg hy.worth_nonneg
  rw [parts_add]
  exact isNear_add hxnumber hynumber ((abs_of_nonneg hnonneg).trans_le h)

theorem isNear_product (hx : IsAmount (parts x)) (hy : IsAmount (parts y))
    (hxnumber : IsNumber (parts x)) (hynumber : IsNumber (parts y))
    (h : value x * value y ≤ overflowBound) :
    IsNear (value x * value y) (parts (x * y)) := by
  have hnonneg : 0 ≤ value x * value y := mul_nonneg hx.worth_nonneg hy.worth_nonneg
  rw [parts_mul]
  exact isNear_mul hxnumber hynumber ((abs_of_nonneg hnonneg).trans_le h)

theorem isNear_quotient (hx : IsAmount (parts x)) (hy : IsAmount (parts y))
    (hxnumber : IsNumber (parts x)) (hynumber : IsNumber (parts y)) (hne : value y ≠ 0)
    (h : value x / value y ≤ overflowBound) :
    IsNear (value x / value y) (parts (x / y)) := by
  have hnonneg : 0 ≤ value x / value y := div_nonneg hx.worth_nonneg hy.worth_nonneg
  rw [parts_div]
  exact isNear_div hxnumber hynumber hne ((abs_of_nonneg hnonneg).trans_le h)

theorem isAmount_foldl (h : ∀ y ∈ xs, IsAmount (parts y)) (hx : IsAmount (parts x)) :
    IsAmount (parts (xs.foldl (· + ·) x)) := by
  induction xs generalizing x with
  | nil => exact hx
  | cons y ys ih =>
      obtain ⟨hy, hys⟩ := List.forall_mem_cons.mp h
      exact ih hys (isAmount_add hx hy)

/-- One rounding brings a sum from `s` to `s'`: what it may come to after `n` more. -/
theorem growth_le {ε τ s s' rest : ℚ} {n : Nat} (hε : 0 ≤ ε) (hτ : 0 ≤ τ) (hrest : 0 ≤ rest)
    (hs : s' ≤ s * (1 + ε) + τ) :
    (s' + rest + n * τ) * (1 + ε) ^ n ≤ (s + rest + (n + 1) * τ) * (1 + ε) ^ (n + 1) := by
  have hrest' := mul_nonneg hrest hε
  have hlost : 0 ≤ (n + 1) * τ * ε := by positivity
  calc
    (s' + rest + n * τ) * (1 + ε) ^ n ≤ (s + rest + (n + 1) * τ) * (1 + ε) * (1 + ε) ^ n := by
        gcongr
        linarith
    _ = (s + rest + (n + 1) * τ) * (1 + ε) ^ (n + 1) := by ring

theorem le_growth {ε τ s s' rest : ℚ} {n : Nat} (hε : 0 ≤ ε) (hε' : ε ≤ 1) (hτ : 0 ≤ τ)
    (hrest : 0 ≤ rest) (hs : s * (1 - ε) - τ ≤ s') :
    (s + rest) * (1 - ε) ^ (n + 1) - (n + 1) * τ ≤ (s' + rest) * (1 - ε) ^ n - n * τ := by
  have hpow : (1 - ε) ^ n ≤ 1 := pow_le_one₀ (by linarith) (by linarith)
  have hpow' : 0 ≤ (1 - ε) ^ n := pow_nonneg (by linarith) _
  have hlost : τ * (1 - ε) ^ n ≤ τ := mul_le_of_le_one_right hτ hpow
  have hrest' := mul_nonneg hrest hε
  calc
    (s + rest) * (1 - ε) ^ (n + 1) - (n + 1) * τ =
        (s + rest) * (1 - ε) * (1 - ε) ^ n - τ - n * τ := by ring
    _ ≤ ((s + rest) * (1 - ε) - τ) * (1 - ε) ^ n - n * τ := by linarith
    _ ≤ (s' + rest) * (1 - ε) ^ n - n * τ := by
        gcongr
        linarith

theorem bounds_of_foldl (h : ∀ y ∈ xs, IsNumber (parts y) ∧ IsAmount (parts y))
    (hx : IsNumber (parts x)) (hamount : IsAmount (parts x))
    (hbound : (value x + (xs.map value).sum + xs.length) * (1 + relativeError) ^ xs.length ≤
      overflowBound) :
    IsNumber (parts (xs.foldl (· + ·) x)) ∧
      (value x + (xs.map value).sum) * (1 - relativeError) ^ xs.length - xs.length *
        leastPositive ≤ value (xs.foldl (· + ·) x) ∧
      value (xs.foldl (· + ·) x) ≤
        (value x + (xs.map value).sum + xs.length * leastPositive) * (1 + relativeError) ^
          xs.length := by
  have hpositive := relativeError_pos.le
  have herror := relativeError_le
  have hleast := leastPositive_pos.le
  have hleast' := leastPositive_le_one
  induction xs generalizing x with
  | nil =>
      refine ⟨hx, ?_, ?_⟩
      · simp
      · simp
  | cons y ys ih =>
      obtain ⟨⟨hy, hyamount⟩, hys⟩ := List.forall_mem_cons.mp h
      have hsum : 0 ≤ value x + value y := add_nonneg hamount.worth_nonneg hyamount.worth_nonneg
      have hrest : 0 ≤ (ys.map value).sum := by
        apply List.sum_nonneg
        rw [List.forall_mem_map]
        exact fun z hz => (hys z hz).2.worth_nonneg
      rw [List.map_cons, List.sum_cons, List.length_cons, Nat.cast_succ, ← add_assoc (value x)]
        at hbound ⊢
      rw [List.foldl_cons]
      have hfits : value x + value y ≤ overflowBound := by
        have hpow : 1 ≤ (1 + relativeError) ^ (ys.length + 1) := one_le_pow₀ (by linarith)
        have hlength : (0 : ℚ) ≤ ys.length := Nat.cast_nonneg _
        refine le_trans ?_ hbound
        exact le_trans (by linarith) (le_mul_of_one_le_right (by linarith) hpow)
      have hnear := isNear_sum hamount hyamount hx hy hfits
      have hle : value (x + y) ≤ (value x + value y) * (1 + relativeError) + leastPositive :=
        hnear.le hsum
      -- The bound is stated with room for one in place of the least positive number, and keeps
      -- that room.
      have hroom : (value (x + y) + (ys.map value).sum + ys.length) *
          (1 + relativeError) ^ ys.length ≤ overflowBound := by
        have hle' : value (x + y) ≤ (value x + value y) * (1 + relativeError) + 1 := by linarith
        have hgrowth := growth_le (n := ys.length) hpositive zero_le_one hrest hle'
        rw [mul_one, mul_one] at hgrowth
        exact hgrowth.trans hbound
      obtain ⟨hnumber, hlow, hhigh⟩ := ih hys hnear.isNumber (isAmount_add hamount hyamount) hroom
      refine ⟨hnumber, le_trans ?_ hlow, hhigh.trans ?_⟩
      · exact le_growth hpositive (by linarith) hleast hrest (hnear.ge hsum)
      · exact growth_le hpositive hleast hrest hle

end Amounts

end StorageLoad.Double
