import StorageLoad.Proofs.Double.Nearest

/-!
The four operations on doubles, as exact operations that are rounded.  The parts of a result are
those that the exact result is rounded to (`isResult_add`, `isResult_sub`, `isResult_mul`,
`isResult_div`): all of them come down to the rounding of one mantissa
(`isResult_roundWithAccuracy`).  A result that does not overflow is therefore next to the exact
one (`IsResult.isNear`).
-/

namespace StorageLoad.Double

open Float.Model Float.Model.UnpackedFloat

/-- The exponent to which a mantissa and an exponent are rounded. -/
def targetOf (m : Nat) (e : Int) : Int :=
  max ((m.log2 : Int) + e - 52) (-1074)

theorem targetExponent_totalExponent (m : Nat) (e : Int) :
    Format.binary64.targetExponent (totalExponent m e) = targetOf m e := by
  change max ((m.log2 : Int) + 1 + e - 53) (-1074) = _
  rw [targetOf]
  omega

theorem mantissa_shiftRight (em : ExtendedMantissa) (k : Nat) :
    (em >>> k).mantissa = em.mantissa / 2 ^ k := by
  change (Nat.repeat ExtendedMantissa.shiftRightOne k em).mantissa = _
  induction k with
  | zero => simp [Nat.repeat]
  | succ k ih =>
      change (ExtendedMantissa.shiftRightOne _).mantissa = _
      rw [ExtendedMantissa.shiftRightOne, ih, Nat.div_div_eq_div_mul, Nat.pow_succ]

theorem mantissa_ofMantissaAndAccuracy (m : Nat) (acc : Accuracy) :
    (ExtendedMantissa.ofMantissaAndAccuracy m acc).mantissa = m := by
  cases acc with
  | exact => rfl
  | inexact order => cases order <;> rfl

/-- How many places a mantissa is shifted. -/
def placesOf (m : Nat) (e : Int) : Nat :=
  (targetOf m e - e).toNat

theorem div_two_pow_placesOf_lt {m : Nat} {e : Int} :
    m / 2 ^ placesOf m e < 2 ^ 53 := by
  rw [Nat.div_lt_iff_lt_mul (Nat.two_pow_pos _), ← Nat.pow_add]
  apply Nat.lt_of_lt_of_le Nat.lt_log2_self
  apply Nat.pow_le_pow_right (by decide)
  rw [placesOf, targetOf]
  omega

theorem le_div_two_pow_placesOf {m : Nat} {e : Int} (hm : m ≠ 0) (he : e ≤ targetOf m e)
    (ht : targetOf m e ≠ -1074) : 2 ^ 52 ≤ m / 2 ^ placesOf m e := by
  rw [Nat.le_div_iff_mul_le (Nat.two_pow_pos _), ← Nat.pow_add]
  refine Nat.le_trans (Nat.pow_le_pow_right (by decide) ?_) (Nat.log2_self_le hm)
  rw [targetOf] at he ht
  rw [placesOf, targetOf]
  omega

theorem shiftToTargetExponent_eq (m : Nat) (e : Int) (acc : Accuracy) :
    shiftToTargetExponent Format.binary64 m e acc =
      (ExtendedMantissa.ofMantissaAndAccuracy m acc >>> placesOf m e, e + placesOf m e) := by
  rw [shiftToTargetExponent, targetExponent_totalExponent]
  rfl

theorem neg_le_targetOf (m : Nat) (e : Int) : -1074 ≤ targetOf m e :=
  Int.le_max_right _ _

theorem placesOf_of_lt {n : Nat} {t : Int} (hn : n < 2 ^ 53) (ht : -1074 ≤ t) :
    placesOf n t = 0 := by
  have hlog : n.log2 ≤ 52 := by
    by_cases hzero : n = 0
    · rw [hzero]
      decide
    · exact Nat.le_of_lt_succ ((Nat.log2_lt hzero).mpr hn)
  rw [placesOf, targetOf]
  omega

theorem placesOf_two_pow {t : Int} (ht : -1074 ≤ t) : placesOf (2 ^ 53) t = 1 := by
  rw [placesOf, targetOf, Nat.log2_two_pow]
  omega

theorem ne_zero_of_targetOf {m : Nat} {e : Int} (he : e ≤ targetOf m e)
    (ht : targetOf m e ≠ -1074) : m ≠ 0 := by
  rintro rfl
  rw [targetOf, Nat.log2_zero] at he ht
  omega

theorem exists_roundWithAccuracy (s : Sign) {m : Nat} {e : Int} {acc : Accuracy} {r : ℚ}
    (he : e ≤ targetOf m e) (h : LiesAt (r / 2 ^ e) m acc) :
    ∃ n, Rounds r n (targetOf m e) ∧
      roundWithAccuracy Format.binary64 s m e acc =
        if h : n = 0 then .zero s
        else if n = 2 ^ 53 then .finite s (2 ^ 52) (targetOf m e + 1) (by decide)
        else .finite s n (targetOf m e) (Nat.pos_of_ne_zero h) := by
  have hexponent : e + placesOf m e = targetOf m e := by
    rw [placesOf]
    omega
  have hlies := h.ofMantissaAndAccuracy.shiftRight (placesOf m e)
  have hscaled : r / 2 ^ e / 2 ^ placesOf m e = r / 2 ^ targetOf m e := by
    rw [← hexponent, zpow_add₀ two_ne_zero, zpow_natCast, div_div]
  have hmantissa := mantissa_shiftRight (.ofMantissaAndAccuracy m acc) (placesOf m e)
  rw [mantissa_ofMantissaAndAccuracy] at hmantissa
  rw [hscaled] at hlies
  have hlt := @div_two_pow_placesOf_lt m e
  have hrounds :
      Rounds r (ExtendedMantissa.ofMantissaAndAccuracy m acc >>> placesOf m e).roundedMantissa
      (targetOf m e) := by
    have hpower : (0 : ℚ) < 2 ^ targetOf m e := zpow_pos two_pos _
    obtain ⟨hlow, hhigh⟩ := hlies.bounds
    rw [hmantissa, le_div_iff₀ hpower] at hlow
    rw [hmantissa, div_lt_iff₀ hpower] at hhigh
    refine ⟨neg_le_targetOf m e, ?_, ?_, hlies.isNearest⟩
    · have hnext : ((m / 2 ^ placesOf m e : Nat) : ℚ) + 1 ≤ 2 ^ 53 := by exact_mod_cast hlt
      rw [zpow_add₀ two_ne_zero]
      exact hhigh.trans_le (mul_le_mul_of_nonneg_right hnext hpower.le)
    · by_cases ht : targetOf m e = -1074
      · exact Or.inl ht
      · have hwide := le_div_two_pow_placesOf (ne_zero_of_targetOf he ht) he ht
        have hwide' : (2 : ℚ) ^ 52 ≤ (m / 2 ^ placesOf m e : Nat) := by exact_mod_cast hwide
        rw [zpow_add₀ two_ne_zero]
        exact Or.inr ((mul_le_mul_of_nonneg_right hwide' hpower.le).trans hlow)
  refine ⟨_, hrounds, ?_⟩
  have hle := hrounds.mantissa_le
  rw [roundWithAccuracy]
  simp only [shiftToTargetExponent_eq, hexponent, mantissa_shiftRight,
    mantissa_ofMantissaAndAccuracy]
  -- A mantissa that rounding has carried beyond its width is shifted once more.
  by_cases hcarry :
      (ExtendedMantissa.ofMantissaAndAccuracy m acc >>> placesOf m e).roundedMantissa = 2 ^ 53
  · have hplaces := placesOf_two_pow (neg_le_targetOf m e)
    have hhalf : 2 ^ 53 / 2 ^ 1 = 2 ^ 52 := rfl
    simp only [hcarry, hplaces, hhalf]
    rfl
  · have hplaces : placesOf (ExtendedMantissa.ofMantissaAndAccuracy m acc >>>
        placesOf m e).roundedMantissa (targetOf m e) = 0 :=
      placesOf_of_lt (by omega) (neg_le_targetOf m e)
    simp only [hplaces, Nat.pow_zero, Nat.div_one, if_neg hcarry, Int.natCast_zero, Int.add_zero]

theorem two_pow_mul_two_zpow_add_one (t : Int) :
    ((2 ^ 52 : Nat) : ℚ) * 2 ^ (t + 1) = ((2 ^ 53 : Nat) : ℚ) * 2 ^ t := by
  rw [zpow_add_one₀ two_ne_zero, pow_succ 2 52, Nat.cast_mul]
  push_cast
  ring

theorem clamp_signed (s : Sign) {r : ℚ} (h : brink ≤ r) :
    max (-brink) (min brink (signed s r)) = signed s brink := by
  have hpos := brink_pos
  cases s
  · change max (-brink) (min brink (-r)) = -brink
    rw [min_eq_right (by linarith), max_eq_left (by linarith)]
  · change max (-brink) (min brink r) = brink
    rw [min_eq_left h, max_eq_right (by linarith)]

theorem isResult_settle (s : Sign) {r : ℚ} {m : Nat} {e : Int} (hpos : 0 < m) (hm : m < 2 ^ 53)
    (hleast : -1074 ≤ e) (hnormal : 2 ^ 52 ≤ m ∨ e = -1074)
    (h : IsRounding r (signed s (m * 2 ^ e))) :
    IsResult r (settle (.finite s m e hpos)) := by
  by_cases hhigh : e ≤ 971
  · have hnumber : IsNumber (.finite s m e hpos) := .finite s m e hpos hm hleast hhigh hnormal
    rw [settle_of_isNumber hnumber]
    refine ⟨.number hnumber, by rintro ⟨⟩, _, h, ?_⟩
    exact (clamp_of_abs_lt (abs_worth_lt hnumber)).symm
  · have hlarge : brink ≤ m * 2 ^ e := by
      have hm' : (2 : ℚ) ^ 52 ≤ m := by exact_mod_cast hnormal.resolve_right (by omega)
      rw [brink]
      calc
        (2 : ℚ) ^ (1024 : Int) ≤ 2 ^ (52 + e) := zpow_le_zpow_right₀ one_le_two (by omega)
        _ = 2 ^ 52 * 2 ^ e := by rw [zpow_add₀ two_ne_zero]; rfl
        _ ≤ m * 2 ^ e := by gcongr
    rw [settle_of_overflow s hpos (by omega)]
    exact ⟨.infinity s, by rintro ⟨⟩, _, h, (clamp_signed s hlarge).symm⟩

theorem isResult_zero (s : Sign) : IsResult 0 (settle (.zero s)) := by
  rw [settle_of_isNumber (.zero s)]
  exact isResult_worth (.zero s)

theorem isResult_roundWithAccuracy (s : Sign) {m : Nat} {e : Int} {acc : Accuracy} {r : ℚ}
    (he : e ≤ targetOf m e) (hr : 0 ≤ r) (h : LiesAt (r / 2 ^ e) m acc) :
    IsResult (signed s r) (settle (roundWithAccuracy Format.binary64 s m e acc)) := by
  obtain ⟨n, hrounds, heq⟩ := exists_roundWithAccuracy s he h
  have hrounding := IsRounding.intro s hr hrounds
  have hleast := hrounds.le
  have hle := hrounds.mantissa_le
  have hnormal : 2 ^ 52 ≤ n ∨ targetOf m e = -1074 := by
    by_cases ht : targetOf m e = -1074
    · exact Or.inr ht
    · exact Or.inl (hrounds.le_mantissa ht)
  rw [heq]
  split
  · rename_i hzero
    rw [hzero, Nat.cast_zero, zero_mul, signed_zero] at hrounding
    rw [settle_of_isNumber (.zero s)]
    refine ⟨.number (.zero s), nofun, 0, hrounding, ?_⟩
    exact (clamp_of_abs_lt (abs_worth_lt (.zero s))).symm
  · split
    · rename_i hcarry
      rw [hcarry, ← two_pow_mul_two_zpow_add_one] at hrounding
      exact isResult_settle s (by decide) (by decide) (by omega) (Or.inl le_rfl) hrounding
    · rename_i hzero hcarry
      exact isResult_settle s _ (by omega) hleast hnormal hrounding

section Arithmetic

variable {u v : UnpackedFloat}

theorem isResult_of_isNumber (h : IsNumber u) : IsResult (worth u) (settle u) := by
  rw [settle_of_isNumber h]
  exact isResult_worth h

theorem signed_mul_signed (s t : Sign) (q r : ℚ) :
    signed s q * signed t r = signed (s * t) (q * r) := by
  cases s <;> cases t
  · exact neg_mul_neg q r
  · exact neg_mul q r
  · exact mul_neg q r
  · rfl

theorem signed_div_signed (s t : Sign) (q r : ℚ) :
    signed s q / signed t r = signed (s / t) (q / r) := by
  cases s <;> cases t
  · exact neg_div_neg_eq q r
  · exact neg_div r q
  · exact div_neg q
  · rfl

theorem le_targetOf_of_le {m : Nat} {e : Int} (h : e ≤ -1074 ∨ 2 ^ 52 ≤ m) :
    e ≤ targetOf m e := by
  rw [targetOf]
  rcases h with h | h
  · omega
  · have hlog := (Nat.le_log2 (by omega)).mpr h
    omega

theorem liesAt_exact (m : Nat) (e : Int) : LiesAt ((m : ℚ) * 2 ^ e / 2 ^ e) m .exact :=
  .exact (mul_div_cancel_right₀ _ (zpow_pos two_pos e).ne')

theorem isResult_mul (hu : IsNumber u) (hv : IsNumber v) :
    IsResult (worth u * worth v) (settle (UnpackedFloat.mul Format.binary64 u v)) := by
  cases hu with
  | zero s =>
      rw [worth_zero, zero_mul]
      cases hv with
      | zero t => exact isResult_zero _
      | finite t n d => exact isResult_zero _
  | finite s m e hm hm' hlow hhigh hnormal =>
      cases hv with
      | zero t =>
          rw [worth_zero, mul_zero]
          exact isResult_zero _
      | finite t n d hn hn' hlow' hhigh' hnormal' =>
          have hexact : (m : ℚ) * 2 ^ e * (n * 2 ^ d) = ((m * n : Nat) : ℚ) * 2 ^ (e + d) := by
            rw [zpow_add₀ two_ne_zero]
            push_cast
            ring
          -- A product is too fine only if both factors are among the least numbers.
          have htarget : e + d ≤ targetOf (m * n) (e + d) := by
            apply le_targetOf_of_le
            by_cases hbig : 2 ^ 52 ≤ m * n
            · exact Or.inr hbig
            · have hm'' := Nat.le_mul_of_pos_right m hn
              have hn'' := Nat.le_mul_of_pos_left n hm
              omega
          rw [worth_finite, worth_finite, signed_mul_signed, hexact]
          exact isResult_roundWithAccuracy _ htarget
            (mul_nonneg (Nat.cast_nonneg _) (zpow_pos two_pos _).le) (liesAt_exact _ _)

theorem log2_mul_two_pow {m : Nat} (hm : 0 < m) (k : Nat) : (m * 2 ^ k).log2 = m.log2 + k := by
  have hne : m ≠ 0 := Nat.ne_of_gt hm
  rw [Nat.log2_eq_iff (Nat.ne_of_gt (Nat.mul_pos hm (Nat.two_pow_pos k))), Nat.add_right_comm,
    Nat.pow_add, Nat.pow_add _ (m.log2 + 1)]
  constructor
  · exact Nat.mul_le_mul_right _ (Nat.log2_self_le hne)
  · exact Nat.mul_lt_mul_of_pos_right Nat.lt_log2_self (Nat.two_pow_pos k)

theorem cast_mul_two_zpow_sub {m : Nat} {e d : Int} (h : d ≤ e) :
    ((m * 2 ^ (e - d).toNat : Nat) : ℚ) * 2 ^ d = m * 2 ^ e := by
  have hexponent : e = ((e - d).toNat : Int) + d := by omega
  conv_rhs => rw [hexponent, zpow_add₀ two_ne_zero, zpow_natCast]
  push_cast
  ring

theorem isResult_round (s : Sign) {m : Nat} (e : Int) (hm : 0 < m) :
    IsResult (signed s (m * 2 ^ e)) (settle (UnpackedFloat.round Format.binary64 s m e)) := by
  rw [UnpackedFloat.round, targetExponent_totalExponent, decreaseExponent]
  simp only [Nat.shiftLeft_eq]
  have htarget : targetOf (m * 2 ^ (e - targetOf m e).toNat) (e - (e - targetOf m e).toNat) =
      targetOf m e := by
    rw [targetOf, log2_mul_two_pow hm, targetOf]
    omega
  have hworth : ((m * 2 ^ (e - targetOf m e).toNat : Nat) : ℚ) *
      2 ^ (e - (e - targetOf m e).toNat) = m * 2 ^ e := by
    have hexponent : (e - (e - (e - targetOf m e).toNat)).toNat =
        (e - targetOf m e).toNat := by omega
    rw [← cast_mul_two_zpow_sub (m := m) (e := e) (d := e - (e - targetOf m e).toNat) (by omega),
      hexponent]
  rw [← hworth]
  apply isResult_roundWithAccuracy s
  · rw [htarget]
    omega
  · exact mul_nonneg (Nat.cast_nonneg _) (zpow_pos two_pos _).le
  · exact liesAt_exact _ _

theorem isResult_normalize (m e : Int) :
    IsResult (m * 2 ^ e) (settle (UnpackedFloat.normalize Format.binary64 m e .positive)) := by
  rw [UnpackedFloat.normalize]
  rcases lt_trichotomy m 0 with h | h | h
  · rw [compare_lt_iff_lt.mpr h]
    have hcast : (((-m).toNat : Nat) : ℚ) = -m := by
      rw [← Int.cast_natCast, Int.toNat_of_nonneg (by omega), Int.cast_neg]
    have hresult := isResult_round .negative (m := (-m).toNat) e (by omega)
    rw [hcast, signed, ← neg_mul, neg_neg] at hresult
    exact hresult
  · rw [compare_eq_iff_eq.mpr h, h, Int.cast_zero, zero_mul]
    exact isResult_zero _
  · rw [compare_gt_iff_gt.mpr h]
    have hcast : ((m.toNat : Nat) : ℚ) = m := by
      rw [← Int.cast_natCast, Int.toNat_of_nonneg h.le]
    have hresult := isResult_round .positive (m := m.toNat) e (by omega)
    rw [hcast, signed] at hresult
    exact hresult

theorem cast_apply (s : Sign) {m : Nat} {e d : Int} (h : d ≤ e) :
    ((s.apply ((m <<< (e - d).toNat : Nat) : Int) : Int) : ℚ) * 2 ^ d = signed s (m * 2 ^ e) := by
  rw [Nat.shiftLeft_eq, ← cast_mul_two_zpow_sub h]
  cases s
  · rw [Sign.apply, signed]
    push_cast
    ring
  · rfl

theorem isResult_add (hu : IsNumber u) (hv : IsNumber v) :
    IsResult (worth u + worth v) (settle (UnpackedFloat.add Format.binary64 u v)) := by
  cases hu with
  | zero s =>
      rw [worth_zero, zero_add]
      cases hv with
      | zero t =>
          rw [UnpackedFloat.add]
          split
          · exact isResult_zero _
          · exact isResult_zero _
      | finite t n d hn hn' hlow' hhigh' hnormal' =>
          exact isResult_of_isNumber (.finite t n d hn hn' hlow' hhigh' hnormal')
  | finite s m e hm hm' hlow hhigh hnormal =>
      cases hv with
      | zero t =>
          rw [worth_zero, add_zero]
          exact isResult_of_isNumber (.finite s m e hm hm' hlow hhigh hnormal)
      | finite t n d hn hn' hlow' hhigh' hnormal' =>
          rw [worth_finite, worth_finite, ← cast_apply s (min_le_left e d),
            ← cast_apply t (min_le_right e d), ← add_mul, ← Int.cast_add]
          exact isResult_normalize _ _

theorem isResult_sub (hu : IsNumber u) (hv : IsNumber v) :
    IsResult (worth u - worth v) (settle (UnpackedFloat.sub Format.binary64 u v)) := by
  cases hu with
  | zero s =>
      rw [worth_zero, zero_sub]
      cases hv with
      | zero t =>
          rw [UnpackedFloat.sub, worth_zero, neg_zero]
          split
          · exact isResult_zero _
          · exact isResult_zero _
      | finite t n d hn hn' hlow' hhigh' hnormal' =>
          have hresult := isResult_of_isNumber (.finite (-t) n d hn hn' hlow' hhigh' hnormal')
          rw [worth_finite] at hresult ⊢
          cases t
          · rw [signed, neg_neg]
            exact hresult
          · exact hresult
  | finite s m e hm hm' hlow hhigh hnormal =>
      cases hv with
      | zero t =>
          rw [worth_zero, sub_zero]
          exact isResult_of_isNumber (.finite s m e hm hm' hlow hhigh hnormal)
      | finite t n d hn hn' hlow' hhigh' hnormal' =>
          rw [worth_finite, worth_finite, ← cast_apply s (min_le_left e d),
            ← cast_apply t (min_le_right e d), ← sub_mul, ← Int.cast_sub]
          exact isResult_normalize _ _

theorem targetExponent_sub (m n : Nat) (e d : Int) :
    Format.binary64.targetExponent (totalExponent m e - totalExponent n d) =
      max ((m.log2 : Int) - n.log2 + (e - d) - 53) (-1074) := by
  change max ((m.log2 : Int) + 1 + e - (n.log2 + 1 + d) - 53) (-1074) = _
  congr 1
  omega

theorem two_pow_le_div {m n k : Nat} (hm : 0 < m) (hn : 0 < n) (h : n.log2 + 53 ≤ m.log2 + k) :
    2 ^ 52 ≤ m * 2 ^ k / n := by
  rw [Nat.le_div_iff_mul_le hn]
  calc
    2 ^ 52 * n ≤ 2 ^ 52 * 2 ^ (n.log2 + 1) := Nat.mul_le_mul_left _ Nat.lt_log2_self.le
    _ = 2 ^ (n.log2 + 53) := by rw [← Nat.pow_add, Nat.add_comm, Nat.add_assoc]
    _ ≤ 2 ^ (m.log2 + k) := Nat.pow_le_pow_right Nat.two_pos h
    _ = 2 ^ m.log2 * 2 ^ k := Nat.pow_add ..
    _ ≤ m * 2 ^ k := Nat.mul_le_mul_right _ (Nat.log2_self_le (Nat.ne_of_gt hm))

theorem isResult_div (hu : IsNumber u) (hv : IsNumber v) (hne : worth v ≠ 0) :
    IsResult (worth u / worth v) (settle (UnpackedFloat.div Format.binary64 u v)) := by
  cases hv with
  | zero t => exact absurd rfl hne
  | finite t n d hn hn' hlow' hhigh' hnormal' =>
      cases hu with
      | zero s =>
          rw [worth_zero, zero_div]
          exact isResult_zero _
      | finite s m e hm hm' hlow hhigh hnormal =>
          rw [UnpackedFloat.div, divCore, targetExponent_sub]
          generalize hfine :
            min (e - d) (max ((m.log2 : Int) - n.log2 + (e - d) - 53) (-1074)) = t
          have hle : t ≤ e - d := hfine ▸ min_le_left _ _
          have hlift := cast_mul_two_zpow_sub (m := m) hle
          have hexact : (m : ℚ) * 2 ^ e / (n * 2 ^ d) =
              ((m * 2 ^ (e - d - t).toNat : Nat) : ℚ) / n * 2 ^ t := by
            rw [div_mul_eq_mul_div, hlift, zpow_sub₀ two_ne_zero, mul_div_assoc', div_div,
              mul_comm _ (n : ℚ)]
          rw [worth_finite, worth_finite, signed_div_signed, hexact]
          simp only [Nat.shiftLeft_eq]
          apply isResult_roundWithAccuracy
          · apply le_targetOf_of_le
            by_cases hleast : t ≤ -1074
            · exact Or.inl hleast
            · exact Or.inr (two_pow_le_div hm hn (by omega))
          · exact mul_nonneg (div_nonneg (Nat.cast_nonneg _) (Nat.cast_nonneg _))
              (zpow_pos two_pos _).le
          · rw [mul_div_cancel_right₀ _ (zpow_pos two_pos t).ne']
            exact .of_division _ hn

end Arithmetic

section Errors

variable {r : ℚ} {u v : UnpackedFloat}

/-- The greatest relative error of an operation. -/
@[irreducible] def relativeError : ℚ :=
  2 ^ (-52 : Int)

/-- The least positive double, the greatest error near zero. -/
@[irreducible] def leastPositive : ℚ :=
  2 ^ (-1074 : Int)

/-- A finite number next to an exact one. -/
structure IsNear (r : ℚ) (u : UnpackedFloat) : Prop where
  isNumber : IsNumber u
  close : |worth u - r| ≤ |r| * relativeError + leastPositive

/-- A bound below which no operation overflows. -/
@[irreducible] def overflowBound : ℚ :=
  2 ^ (1022 : Int)

theorem relativeError_pos : 0 < relativeError := by
  rw [relativeError]
  exact zpow_pos two_pos _

theorem leastPositive_pos : 0 < leastPositive := by
  rw [leastPositive]
  exact zpow_pos two_pos _

theorem Rounds.close {n : Nat} {t : Int} (h : Rounds r n t) (hr : 0 ≤ r) :
    |n * 2 ^ t - r| ≤ r * relativeError + leastPositive := by
  have hpower : (0 : ℚ) < 2 ^ t := zpow_pos two_pos t
  have herror : 0 ≤ r * relativeError := mul_nonneg hr relativeError_pos.le
  have hleast := leastPositive_pos
  have hstep : (2 : ℚ) ^ t ≤ r * relativeError + leastPositive := by
    rcases h.normal with ht | ht
    · rw [ht, ← leastPositive]
      linarith
    · have hscaled := mul_le_mul_of_nonneg_right ht relativeError_pos.le
      have hexponent : (52 + t : Int) + -52 = t := by omega
      conv_lhs at hscaled => rw [relativeError, ← zpow_add₀ two_ne_zero, hexponent]
      linarith
  have hlow := mul_le_mul_of_nonneg_right h.isNearest.ge hpower.le
  have hhigh := mul_le_mul_of_nonneg_right h.isNearest.le hpower.le
  rw [add_mul, div_mul_cancel₀ _ hpower.ne'] at hlow
  rw [div_mul_cancel₀ _ hpower.ne', add_mul] at hhigh
  rw [abs_le]
  constructor
  · linarith
  · linarith

theorem IsResult.isNear_of_isNumber (h : IsResult r u) (hnumber : IsNumber u) : IsNear r u := by
  obtain ⟨q, hq, hplace⟩ := h.exists_rounding
  have hlt := abs_worth_lt hnumber
  rw [place_of_isNumber hnumber] at hplace
  rw [hplace] at hlt
  rw [eq_of_abs_clamp_lt hlt] at hplace
  refine ⟨hnumber, ?_⟩
  rw [hplace]
  obtain ⟨s, hr, hrounds⟩ := hq
  rw [signed_sub, abs_signed, abs_signed, abs_of_nonneg hr]
  exact hrounds.close hr

theorem IsResult.isNear (h : IsResult r u) (hbound : |r| ≤ overflowBound) : IsNear r u := by
  have hlarge : IsNumber (.finite .positive (2 ^ 52) 970 (by decide)) :=
    .finite _ _ _ _ (by decide) (by decide) (by decide) (Or.inl le_rfl)
  have hworth : worth (.finite .positive (2 ^ 52) 970 (by decide)) = overflowBound := by
    rw [worth_finite, signed, overflowBound, Nat.cast_pow, Nat.cast_ofNat, ← zpow_natCast,
      ← zpow_add₀ two_ne_zero]
    rfl
  apply h.isNear_of_isNumber
  refine (h.abs_le hlarge ?_).1
  rw [hworth]
  exact hbound.trans (le_abs_self _)

theorem isNear_add (hu : IsNumber u) (hv : IsNumber v)
    (hbound : |worth u + worth v| ≤ overflowBound) :
    IsNear (worth u + worth v) (settle (UnpackedFloat.add Format.binary64 u v)) :=
  (isResult_add hu hv).isNear hbound

theorem isNear_sub (hu : IsNumber u) (hv : IsNumber v)
    (hbound : |worth u - worth v| ≤ overflowBound) :
    IsNear (worth u - worth v) (settle (UnpackedFloat.sub Format.binary64 u v)) :=
  (isResult_sub hu hv).isNear hbound

theorem isNear_mul (hu : IsNumber u) (hv : IsNumber v)
    (hbound : |worth u * worth v| ≤ overflowBound) :
    IsNear (worth u * worth v) (settle (UnpackedFloat.mul Format.binary64 u v)) :=
  (isResult_mul hu hv).isNear hbound

theorem isNear_div (hu : IsNumber u) (hv : IsNumber v) (hne : worth v ≠ 0)
    (hbound : |worth u / worth v| ≤ overflowBound) :
    IsNear (worth u / worth v) (settle (UnpackedFloat.div Format.binary64 u v)) :=
  (isResult_div hu hv hne).isNear hbound

end Errors

section Bounds

variable {r : ℚ} {u : UnpackedFloat}

theorem IsNear.le (h : IsNear r u) (hr : 0 ≤ r) :
    worth u ≤ r * (1 + relativeError) + leastPositive := by
  have hclose := (abs_le.mp h.close).2
  rw [abs_of_nonneg hr] at hclose
  linarith

theorem IsNear.ge (h : IsNear r u) (hr : 0 ≤ r) :
    r * (1 - relativeError) - leastPositive ≤ worth u := by
  have hclose := (abs_le.mp h.close).1
  rw [abs_of_nonneg hr] at hclose
  linarith

/-- A bound that leaves room for a few operations. -/
@[irreducible] def moderate : ℚ :=
  2 ^ (1000 : Int)

theorem one_le_moderate : 1 ≤ moderate := by
  rw [moderate]
  exact one_le_zpow₀ one_le_two (by decide)

theorem two_pow_le_moderate {k : Nat} (hk : k ≤ 1000) : (2 : ℚ) ^ k ≤ moderate := by
  rw [moderate, ← zpow_natCast]
  exact zpow_le_zpow_right₀ one_le_two (by omega)

theorem moderate_mul_le {k : Nat} (hk : k ≤ 22) : moderate * 2 ^ k ≤ overflowBound := by
  rw [moderate, overflowBound, ← zpow_natCast, ← zpow_add₀ two_ne_zero]
  exact zpow_le_zpow_right₀ one_le_two (by omega)

theorem relativeError_le : relativeError ≤ 1 / 2 ^ 10 := by
  rw [relativeError, zpow_neg, one_div]
  norm_num

theorem one_sub_le_pow {n : Nat} : 1 - n * relativeError ≤ (1 - relativeError) ^ n := by
  have herror := relativeError_le
  have hbernoulli := one_add_mul_le_pow (a := -relativeError) (by linarith) n
  rwa [mul_neg, ← sub_eq_add_neg, ← sub_eq_add_neg] at hbernoulli

theorem one_add_relativeError_pow_le {n : Nat} (hn : n ≤ 2 ^ 51) :
    (1 + relativeError) ^ n ≤ 2 := by
  have hpositive := relativeError_pos
  have herror := relativeError_le
  have hhalf : n * relativeError ≤ 1 / 2 := by
    have hn' : (n : ℚ) ≤ 2 ^ 51 := by exact_mod_cast hn
    calc
      n * relativeError ≤ 2 ^ 51 * relativeError := by gcongr
      _ = 1 / 2 := by
          rw [relativeError, zpow_neg]
          norm_num
  have hlow := one_sub_le_pow (n := n)
  have hproduct : (1 + relativeError) ^ n * (1 - relativeError) ^ n ≤ 1 := by
    rw [← mul_pow]
    exact pow_le_one₀ (by nlinarith) (by nlinarith)
  have hpow : 0 ≤ (1 + relativeError) ^ n := pow_nonneg (by linarith) n
  nlinarith

theorem leastPositive_le : leastPositive ≤ relativeError ^ 2 := by
  rw [leastPositive, relativeError, ← zpow_natCast, ← zpow_mul]
  exact zpow_le_zpow_right₀ one_le_two (by decide)

theorem leastPositive_le_one : leastPositive ≤ 1 := by
  rw [leastPositive]
  exact zpow_le_one_of_nonpos₀ one_le_two (by decide)

end Bounds

end StorageLoad.Double
