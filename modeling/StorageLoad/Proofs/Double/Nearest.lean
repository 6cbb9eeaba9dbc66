import StorageLoad.Proofs.Double.Parts

/-!
Correct rounding.  The natural number nearest to a number is unique and keeps the order
(`IsNearest.mono`), also where all that is known of the number is how it lies between its
neighbours (`LiesAt.isNearest`); so does the double to which a number is rounded
(`IsResult.mono`).
-/

namespace StorageLoad.Double

open Float.Model Float.Model.UnpackedFloat

/-- The natural number nearest to a number, and of two equally near ones the even one. -/
structure IsNearest (x : ℚ) (n : Nat) : Prop where
  le : x ≤ n + 1 / 2
  ge : n ≤ x + 1 / 2
  even : x = n + 1 / 2 ∨ n = x + 1 / 2 → n % 2 = 0

section Nearest

variable {x y : ℚ} {m n : Nat}

theorem IsNearest.mono (hx : IsNearest x m) (hy : IsNearest y n) (h : x ≤ y) : m ≤ n := by
  by_contra hless
  have hnext : (n : ℚ) + 1 ≤ m := by exact_mod_cast Nat.lt_of_not_le hless
  have hm := hx.ge
  have hn := hy.le
  -- Both numbers would be half-way between the same neighbours, of which only one is even.
  have hmeven := hx.even (Or.inr (by linarith))
  have hneven := hy.even (Or.inl (by linarith))
  have hsucc : (m : ℚ) = (n + 1 : Nat) := by
    push_cast
    linarith
  have hsucc' : m = n + 1 := Nat.cast_injective hsucc
  omega

theorem isNearest_natCast (n : Nat) : IsNearest n n where
  le := by linarith
  ge := by linarith
  even := by
    rintro (h | h)
    · linarith
    · linarith

/-- Where a number lies between a natural number and the next one. -/
inductive LiesAt (x : ℚ) (m : Nat) : Accuracy → Prop
  | exact (h : x = m) : LiesAt x m .exact
  | low (h : m < x) (h' : x < m + 1 / 2) : LiesAt x m (.inexact .lt)
  | half (h : x = m + 1 / 2) : LiesAt x m (.inexact .eq)
  | high (h : m + 1 / 2 < x) (h' : x < m + 1) : LiesAt x m (.inexact .gt)

namespace LiesAt

variable {acc : Accuracy}

theorem bounds (h : LiesAt x m acc) : m ≤ x ∧ x < m + 1 := by
  cases h with
  | exact h => exact ⟨by linarith, by linarith⟩
  | low h h' => exact ⟨by linarith, by linarith⟩
  | half h => exact ⟨by linarith, by linarith⟩
  | high h h' => exact ⟨by linarith, by linarith⟩

/-- Rounding by the accuracy gives the nearest number. -/
theorem isNearest (h : LiesAt x m acc) : IsNearest x (acc.roundToNearestEven m) := by
  cases h with
  | exact h =>
      rw [h]
      exact isNearest_natCast m
  | low h h' =>
      rw [Accuracy.roundToNearestEven]
      refine ⟨h'.le, by linarith, ?_⟩
      rintro (heq | heq)
      · linarith
      · linarith
  | half h =>
      rw [Accuracy.roundToNearestEven]
      rcases Nat.mod_two_eq_zero_or_one m with heven | hodd
      · rw [heven, Nat.add_zero]
        exact ⟨h.le, by linarith, fun _ => heven⟩
      · rw [hodd]
        exact ⟨by push_cast; linarith, by push_cast; linarith, fun _ => by omega⟩
  | high h h' =>
      rw [Accuracy.roundToNearestEven]
      refine ⟨by push_cast; linarith, by push_cast; linarith, ?_⟩
      push_cast
      rintro (heq | heq)
      · linarith
      · linarith

theorem shiftRightOne {em : ExtendedMantissa} (h : LiesAt x em.mantissa em.accuracy) :
    LiesAt (x / 2) em.shiftRightOne.mantissa em.shiftRightOne.accuracy := by
  obtain ⟨m, round, sticky⟩ := em
  rw [ExtendedMantissa.shiftRightOne]
  dsimp only at h ⊢
  have hdivision : ((m / 2 : Nat) : ℚ) = (m - (m % 2 : Nat)) / 2 := by
    have hsplit : ((2 * (m / 2) + m % 2 : Nat) : ℚ) = m := by rw [Nat.div_add_mod]
    push_cast at hsplit ⊢
    linarith
  rcases Nat.mod_two_eq_zero_or_one m with hm | hm
  all_goals
    rw [hm] at hdivision ⊢
    push_cast at hdivision
  all_goals
    cases round
    all_goals cases sticky
    all_goals cases h
  · exact .exact (by linarith)
  · exact .low (by linarith) (by linarith)
  · exact .low (by linarith) (by linarith)
  · exact .low (by linarith) (by linarith)
  · exact .half (by linarith)
  · exact .high (by linarith) (by linarith)
  · exact .high (by linarith) (by linarith)
  · exact .high (by linarith) (by linarith)

theorem shiftRight {em : ExtendedMantissa} (h : LiesAt x em.mantissa em.accuracy) (k : Nat) :
    LiesAt (x / 2 ^ k) (em >>> k).mantissa (em >>> k).accuracy := by
  change LiesAt _ (Nat.repeat ExtendedMantissa.shiftRightOne k em).mantissa
    (Nat.repeat ExtendedMantissa.shiftRightOne k em).accuracy
  induction k with
  | zero => simpa [Nat.repeat] using h
  | succ k ih =>
      rw [pow_succ, ← div_div]
      exact ih.shiftRightOne

theorem ofMantissaAndAccuracy (h : LiesAt x m acc) :
    LiesAt x (ExtendedMantissa.ofMantissaAndAccuracy m acc).mantissa
      (ExtendedMantissa.ofMantissaAndAccuracy m acc).accuracy := by
  cases h with
  | exact h => exact .exact h
  | low h h' => exact .low h h'
  | half h => exact .half h
  | high h h' => exact .high h h'

theorem of_division (num : Nat) {den : Nat} (hden : 0 < den) :
    LiesAt ((num : ℚ) / den) (num / den) (accuracyOfFraction (num % den) den) := by
  have hpos : (0 : ℚ) < den := Nat.cast_pos.mpr hden
  have hsplit : (num : ℚ) / den = (num / den : Nat) + (num % den : Nat) / den := by
    rw [eq_comm, ← sub_eq_zero]
    field_simp
    have hnum : (den * (num / den) + num % den : Nat) = num := Nat.div_add_mod num den
    have hnum' : (den : ℚ) * (num / den : Nat) + (num % den : Nat) = num := by exact_mod_cast hnum
    linarith
  have hrest : (num % den : Nat) < den := Nat.mod_lt num hden
  rw [hsplit, accuracyOfFraction]
  generalize num % den = rest at *
  have hrest' : (rest : ℚ) / den < 1 := by
    rw [div_lt_one hpos]
    exact_mod_cast hrest
  split
  · rename_i hzero
    rw [hzero, Nat.cast_zero, zero_div, add_zero]
    exact .exact rfl
  · rename_i hzero
    have hpositive : 0 < (rest : ℚ) / den :=
      div_pos (Nat.cast_pos.mpr (Nat.pos_of_ne_zero hzero)) hpos
    rcases lt_trichotomy (2 * rest) den with hless | hhalf | hmore
    · rw [compare_lt_iff_lt.mpr hless]
      have hlow : (rest : ℚ) / den < 1 / 2 := by
        rw [div_lt_div_iff₀ hpos two_pos]
        exact_mod_cast (by omega : rest * 2 < 1 * den)
      exact .low (by linarith) (by linarith)
    · rw [compare_eq_iff_eq.mpr hhalf]
      have hmiddle : (rest : ℚ) / den = 1 / 2 := by
        rw [div_eq_div_iff hpos.ne' two_ne_zero]
        exact_mod_cast (by omega : rest * 2 = 1 * den)
      exact .half (by linarith)
    · rw [compare_gt_iff_gt.mpr hmore]
      have hhigh : 1 / 2 < (rest : ℚ) / den := by
        rw [div_lt_div_iff₀ two_pos hpos]
        exact_mod_cast (by omega : 1 * den < rest * 2)
      exact .high (by linarith) (by linarith)

end LiesAt

end Nearest

section Rounded

/-- A number that is not negative is rounded to `n * 2 ^ t`.  At the exponent `t` a mantissa has
its width, or else the exponent is the least one; and `n` is the nearest mantissa. -/
structure Rounds (r : ℚ) (n : Nat) (t : Int) : Prop where
  le : -1074 ≤ t
  lt : r < 2 ^ (53 + t)
  normal : t = -1074 ∨ 2 ^ (52 + t) ≤ r
  isNearest : IsNearest (r / 2 ^ t) n

namespace Rounds

variable {r r' : ℚ} {n n' : Nat} {t t' : Int}

theorem mantissa_le (h : Rounds r n t) : n ≤ 2 ^ 53 := by
  apply h.isNearest.mono (isNearest_natCast (2 ^ 53))
  rw [div_le_iff₀ (zpow_pos two_pos t)]
  have hlt := h.lt.le
  rw [zpow_add₀ two_ne_zero] at hlt
  exact_mod_cast hlt

theorem le_mantissa (h : Rounds r n t) (ht : t ≠ -1074) : 2 ^ 52 ≤ n := by
  apply (isNearest_natCast (2 ^ 52)).mono h.isNearest
  rw [le_div_iff₀ (zpow_pos two_pos t)]
  have hle := h.normal.resolve_left ht
  rw [zpow_add₀ two_ne_zero] at hle
  exact_mod_cast hle

theorem exponent_le (h : Rounds r n t) (h' : Rounds r' n' t') (hle : r ≤ r') : t ≤ t' := by
  by_contra hless
  have hleast := h'.le
  have hnormal := h.normal.resolve_left (by omega)
  have hgrid : (2 : ℚ) ^ (53 + t') ≤ 2 ^ (52 + t) := zpow_le_zpow_right₀ one_le_two (by omega)
  have hlt := h'.lt
  linarith

/-- Rounding keeps the order. -/
theorem mono (h : Rounds r n t) (h' : Rounds r' n' t') (hle : r ≤ r') :
    (n : ℚ) * 2 ^ t ≤ n' * 2 ^ t' := by
  rcases (h.exponent_le h' hle).lt_or_eq with hlt | rfl
  · -- A power of two lies between numbers that are rounded at different exponents.
    have hn : (n : ℚ) ≤ 2 ^ 53 := by exact_mod_cast h.mantissa_le
    have hleast := h.le
    have hn' : (2 : ℚ) ^ 52 ≤ n' := by exact_mod_cast h'.le_mantissa (by omega)
    calc
      (n : ℚ) * 2 ^ t ≤ 2 ^ 53 * 2 ^ t := by gcongr
      _ = 2 ^ (53 + t) := by rw [zpow_add₀ two_ne_zero]; rfl
      _ ≤ 2 ^ (52 + t') := zpow_le_zpow_right₀ one_le_two (by omega)
      _ = 2 ^ 52 * 2 ^ t' := by rw [zpow_add₀ two_ne_zero]; rfl
      _ ≤ n' * 2 ^ t' := by gcongr
  · have hpower : (0 : ℚ) < 2 ^ t := zpow_pos two_pos t
    have hmantissas : n ≤ n' := h.isNearest.mono h'.isNearest (by gcongr)
    gcongr

theorem of_fits (hn : n < 2 ^ 53) (ht : -1074 ≤ t) (hnormal : 2 ^ 52 ≤ n ∨ t = -1074) :
    Rounds (n * 2 ^ t) n t where
  le := ht
  lt := by
    rw [zpow_add₀ two_ne_zero]
    have hcast : (n : ℚ) < 2 ^ 53 := by exact_mod_cast hn
    exact mul_lt_mul_of_pos_right hcast (zpow_pos two_pos t)
  normal := by
    rcases hnormal with hnormal | hleast
    · right
      rw [zpow_add₀ two_ne_zero]
      have hcast : (2 : ℚ) ^ 52 ≤ n := by exact_mod_cast hnormal
      exact mul_le_mul_of_nonneg_right hcast (zpow_pos two_pos t).le
    · exact Or.inl hleast
  isNearest := by
    rw [mul_div_cancel_right₀ _ (zpow_pos two_pos t).ne']
    exact isNearest_natCast n

end Rounds

theorem rounds_zero : Rounds 0 0 (-1074) := by
  have hfits := Rounds.of_fits (n := 0) (t := -1074) (by decide) (by decide) (Or.inr rfl)
  rwa [Nat.cast_zero, zero_mul] at hfits

/-- A number with a sign. -/
def signed (s : Sign) (r : ℚ) : ℚ :=
  match s with
  | .negative => -r
  | .positive => r

theorem signed_zero (s : Sign) : signed s 0 = 0 := by
  cases s
  · exact neg_zero
  · rfl

theorem abs_signed (s : Sign) (r : ℚ) : |signed s r| = |r| := by
  cases s
  · exact abs_neg r
  · rfl

theorem signed_sub (s : Sign) (q r : ℚ) : signed s q - signed s r = signed s (q - r) := by
  cases s
  · change -q - -r = -(q - r)
    ring
  · rfl

/-- One number is rounded to another, whatever its sign. -/
inductive IsRounding : ℚ → ℚ → Prop
  | intro (s : Sign) {r : ℚ} {n : Nat} {t : Int} (hr : 0 ≤ r) (h : Rounds r n t) :
      IsRounding (signed s r) (signed s (n * 2 ^ t))

theorem IsRounding.mono {r q r' q' : ℚ} (h : IsRounding r q) (h' : IsRounding r' q')
    (hle : r ≤ r') :
    q ≤ q' := by
  obtain ⟨s, hr, h⟩ := h
  obtain ⟨s', hr', h'⟩ := h'
  have hsize : ∀ (n : Nat) (t : Int), (0 : ℚ) ≤ n * 2 ^ t :=
    fun n t => mul_nonneg (Nat.cast_nonneg n) (zpow_pos two_pos t).le
  cases s <;> cases s'
  · exact neg_le_neg (h'.mono h (neg_le_neg_iff.mp hle))
  · exact (neg_nonpos.mpr (hsize _ _)).trans (hsize _ _)
  · -- Only zero is neither above nor below zero.
    rename_i r n t r' n' t'
    have hle' : r ≤ -r' := hle
    have hn := h.mono rounds_zero (by linarith)
    have hn' := h'.mono rounds_zero (by linarith)
    rw [Nat.cast_zero, zero_mul] at hn hn'
    exact hn.trans (neg_nonneg.mpr hn')
  · exact h.mono h' hle

/-- The number that the parts of a finite double stand for. -/
def worth : UnpackedFloat → ℚ
  | .finite s m e _ => signed s (m * 2 ^ e)
  | _ => 0

@[simp] theorem worth_zero (s : Sign) : worth (.zero s) = 0 :=
  rfl

theorem worth_finite (s : Sign) (m : Nat) (e : Int) (h : 0 < m) :
    worth (.finite s m e h) = signed s (m * 2 ^ e) :=
  rfl

/-- Where the numbers end. -/
@[irreducible] def brink : ℚ :=
  2 ^ (1024 : Int)

theorem brink_pos : 0 < brink := by
  rw [brink]
  exact zpow_pos two_pos _

/-- The place of a double in the order, where the infinities stand at the two ends. -/
def place : UnpackedFloat → ℚ
  | .infinity s => signed s brink
  | u => worth u

variable {r r' : ℚ} {u u' v : UnpackedFloat}

theorem place_of_isNumber (h : IsNumber u) : place u = worth u := by
  cases h with
  | zero s => rfl
  | finite s m e hpos => rfl

theorem isRounding_worth (h : IsNumber u) : IsRounding (worth u) (worth u) := by
  cases h with
  | zero s =>
      have hzero := IsRounding.intro .positive le_rfl rounds_zero
      rwa [Nat.cast_zero, zero_mul] at hzero
  | finite s m e hpos hm hlow hhigh hnormal =>
      exact .intro s (mul_nonneg (Nat.cast_nonneg m) (zpow_pos two_pos e).le)
        (.of_fits hm hlow hnormal)

theorem abs_worth_lt (h : IsNumber u) : |worth u| < brink := by
  cases h with
  | zero s =>
      rw [worth_zero, abs_zero]
      exact brink_pos
  | finite s m e hpos hm hlow hhigh hnormal =>
      have hm' : (m : ℚ) < 2 ^ 53 := by exact_mod_cast hm
      have hsize : (0 : ℚ) ≤ m * 2 ^ e := mul_nonneg (Nat.cast_nonneg m) (zpow_pos two_pos e).le
      rw [worth_finite, abs_signed, abs_of_nonneg hsize, brink]
      calc
        (m : ℚ) * 2 ^ e < 2 ^ 53 * 2 ^ e := mul_lt_mul_of_pos_right hm' (zpow_pos two_pos e)
        _ = 2 ^ (53 + e) := by rw [zpow_add₀ two_ne_zero]; rfl
        _ ≤ 2 ^ (1024 : Int) := zpow_le_zpow_right₀ one_le_two (by omega)

/-- The parts of a double that an exact result is rounded to, or of infinity if that is too
large. -/
structure IsResult (r : ℚ) (u : UnpackedFloat) : Prop where
  isCanonical : IsCanonical u
  ne_notANumber : u ≠ .notANumber
  exists_rounding : ∃ q, IsRounding r q ∧ place u = max (-brink) (min brink q)

/-- Correct rounding keeps the order. -/
theorem IsResult.mono (h : IsResult r u) (h' : IsResult r' u') (hle : r ≤ r') :
    place u ≤ place u' := by
  obtain ⟨q, hq, hplace⟩ := h.exists_rounding
  obtain ⟨q', hq', hplace'⟩ := h'.exists_rounding
  rw [hplace, hplace']
  exact max_le_max le_rfl (min_le_min le_rfl (hq.mono hq' hle))

theorem clamp_of_abs_lt {q : ℚ} (h : |q| < brink) : max (-brink) (min brink q) = q := by
  obtain ⟨hlow, hhigh⟩ := abs_lt.mp h
  rw [min_eq_right hhigh.le, max_eq_right hlow.le]

theorem eq_of_abs_clamp_lt {q : ℚ} (h : |max (-brink) (min brink q)| < brink) :
    max (-brink) (min brink q) = q := by
  obtain ⟨hlow, hhigh⟩ := abs_lt.mp h
  rcases max_choice (-brink) (min brink q) with hmax | hmax
  · linarith
  · rcases min_choice brink q with hmin | hmin
    · linarith
    · rw [hmax, hmin]

theorem isResult_worth (h : IsNumber u) : IsResult (worth u) u where
  isCanonical := .number h
  ne_notANumber := by
    rintro rfl
    cases h
  exists_rounding := ⟨worth u, isRounding_worth h, by
    rw [place_of_isNumber h, clamp_of_abs_lt (abs_worth_lt h)]⟩

theorem IsResult.isNumber (h : IsResult r u) (hlt : |place u| < brink) : IsNumber u := by
  cases h.isCanonical with
  | notANumber => exact absurd rfl h.ne_notANumber
  | infinity s =>
      rw [place, abs_signed, abs_of_pos brink_pos] at hlt
      exact absurd hlt (lt_irrefl _)
  | number hnumber => exact hnumber

theorem IsRounding.abs_le {q : ℚ} (h : IsRounding r q) (hv : IsNumber v) (hle : |r| ≤ |worth v|) :
    |q| ≤ |worth v| := by
  have habs : IsRounding |worth v| |worth v| := by
    cases hv with
    | zero s => simpa using isRounding_worth (.zero s)
    | finite s m e hpos hm hlow hhigh hnormal =>
        have hsize : (0 : ℚ) ≤ m * 2 ^ e := mul_nonneg (Nat.cast_nonneg m) (zpow_pos two_pos e).le
        rw [worth_finite, abs_signed, abs_of_nonneg hsize]
        exact isRounding_worth (.finite .positive m e hpos hm hlow hhigh hnormal)
  obtain ⟨s, hr, h⟩ := h
  rename_i r n t
  have hsize : (0 : ℚ) ≤ n * 2 ^ t := mul_nonneg (Nat.cast_nonneg n) (zpow_pos two_pos t).le
  rw [abs_signed, abs_of_nonneg hr] at hle
  rw [abs_signed, abs_of_nonneg hsize]
  exact (IsRounding.intro .positive hr h).mono habs hle

theorem IsResult.abs_le (h : IsResult r u) (hv : IsNumber v) (hle : |r| ≤ |worth v|) :
    IsNumber u ∧ |worth u| ≤ |worth v| := by
  obtain ⟨q, hq, hplace⟩ := h.exists_rounding
  have hq' := hq.abs_le hv hle
  rw [clamp_of_abs_lt (hq'.trans_lt (abs_worth_lt hv))] at hplace
  have hnumber := h.isNumber (by rw [hplace]; exact hq'.trans_lt (abs_worth_lt hv))
  refine ⟨hnumber, ?_⟩
  rwa [← place_of_isNumber hnumber, hplace]

end Rounded

end StorageLoad.Double
