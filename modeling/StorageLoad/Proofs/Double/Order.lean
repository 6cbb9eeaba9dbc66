import StorageLoad.Proofs.Double.Value

/-!
The order of doubles.  It is that of their places, with the infinities at the ends (`compare_eq`),
and the operations keep it, since rounding does (`IsResult.le`).
-/

namespace StorageLoad.Double

open Float.Model Float.Model.UnpackedFloat

section Places

variable {u v : UnpackedFloat}

theorem abs_place_le (h : IsCanonical u) : |place u| ≤ brink := by
  cases h with
  | notANumber =>
      change |(0 : ℚ)| ≤ brink
      rw [abs_zero]
      exact brink_pos.le
  | infinity s => rw [place, abs_signed, abs_of_pos brink_pos]
  | number h =>
      rw [place_of_isNumber h]
      exact (abs_worth_lt h).le

theorem mul_two_zpow_lt {m n : Nat} {e d : Int} (hm : m < 2 ^ 53) (he : -1074 ≤ e) (hlt : e < d)
    (hnormal : 2 ^ 52 ≤ n ∨ d = -1074) : (m : ℚ) * 2 ^ e < n * 2 ^ d := by
  have hm' : (m : ℚ) < 2 ^ 53 := by exact_mod_cast hm
  have hn' : (2 : ℚ) ^ 52 ≤ n := by exact_mod_cast hnormal.resolve_right (by omega)
  calc
    (m : ℚ) * 2 ^ e < 2 ^ 53 * 2 ^ e := mul_lt_mul_of_pos_right hm' (zpow_pos two_pos e)
    _ = 2 ^ (53 + e) := by rw [zpow_add₀ two_ne_zero]; rfl
    _ ≤ 2 ^ (52 + d) := zpow_le_zpow_right₀ one_le_two (by omega)
    _ = 2 ^ 52 * 2 ^ d := by rw [zpow_add₀ two_ne_zero]; rfl
    _ ≤ n * 2 ^ d := by gcongr

theorem then_compare_eq {m n : Nat} {e d : Int} (hm : m < 2 ^ 53) (hn : n < 2 ^ 53)
    (he : -1074 ≤ e) (hd : -1074 ≤ d) (hm' : 2 ^ 52 ≤ m ∨ e = -1074)
    (hn' : 2 ^ 52 ≤ n ∨ d = -1074) :
    (compare e d).then (compare m n) = compare ((m : ℚ) * 2 ^ e) (n * 2 ^ d) := by
  rcases lt_trichotomy e d with hlt | rfl | hgt
  · rw [compare_lt_iff_lt.mpr hlt, compare_lt_iff_lt.mpr (mul_two_zpow_lt hm he hlt hn')]
    rfl
  · have hpower : (0 : ℚ) < 2 ^ e := zpow_pos two_pos e
    rw [compare_eq_iff_eq.mpr rfl, Ordering.eq_then]
    rcases lt_trichotomy m n with hlt | rfl | hgt
    · rw [compare_lt_iff_lt.mpr hlt, compare_lt_iff_lt.mpr]
      exact mul_lt_mul_of_pos_right (Nat.cast_lt.mpr hlt) hpower
    · rw [compare_eq_iff_eq.mpr rfl, compare_eq_iff_eq.mpr rfl]
    · rw [compare_gt_iff_gt.mpr hgt, compare_gt_iff_gt.mpr]
      exact mul_lt_mul_of_pos_right (Nat.cast_lt.mpr hgt) hpower
  · rw [compare_gt_iff_gt.mpr hgt, compare_gt_iff_gt.mpr (mul_two_zpow_lt hn hd hgt hm')]
    rfl

theorem compare_neg (a b : ℚ) : compare (-a) (-b) = (compare a b).swap := by
  rcases lt_trichotomy a b with hlt | rfl | hgt
  · rw [compare_lt_iff_lt.mpr hlt, compare_gt_iff_gt.mpr (neg_lt_neg hlt)]
    rfl
  · rw [compare_eq_iff_eq.mpr rfl, compare_eq_iff_eq.mpr rfl]
    rfl
  · rw [compare_gt_iff_gt.mpr hgt, compare_lt_iff_lt.mpr (neg_lt_neg hgt)]
    rfl

theorem compare_worth (hu : IsNumber u) (hv : IsNumber v) :
    u.compare v = some (compare (worth u) (worth v)) := by
  have hsize : ∀ {m : Nat} {e : Int}, 0 < m → (0 : ℚ) < m * 2 ^ e :=
    fun hm => mul_pos (Nat.cast_pos.mpr hm) (zpow_pos two_pos _)
  cases hu with
  | zero s =>
      cases hv with
      | zero t => rfl
      | finite t n d hn =>
          cases t
          · exact congrArg some (compare_gt_iff_gt.mpr (neg_neg_of_pos (hsize hn))).symm
          · exact congrArg some (compare_lt_iff_lt.mpr (hsize hn)).symm
  | finite s m e hm hm' hlow hhigh hnormal =>
      cases hv with
      | zero t =>
          cases s
          · exact congrArg some (compare_lt_iff_lt.mpr (neg_neg_of_pos (hsize hm))).symm
          · exact congrArg some (compare_gt_iff_gt.mpr (hsize hm)).symm
      | finite t n d hn hn' hlow' hhigh' hnormal' =>
          have hsame := then_compare_eq hm' hn' hlow hlow' hnormal hnormal'
          cases s <;> cases t
          · change some (Ordering.swap _) = some (compare (-_) (-_))
            rw [hsame, compare_neg]
          · exact congrArg some
              (compare_lt_iff_lt.mpr ((neg_neg_of_pos (hsize hm)).trans (hsize hn))).symm
          · exact congrArg some
              (compare_gt_iff_gt.mpr ((neg_neg_of_pos (hsize hn)).trans (hsize hm))).symm
          · exact congrArg some hsame

/-- The order of the parts of doubles is that of their places. -/
theorem compare_eq (hu : IsCanonical u) (hv : IsCanonical v) (hu' : u ≠ .notANumber)
    (hv' : v ≠ .notANumber) : u.compare v = some (compare (place u) (place v)) := by
  have hpos := brink_pos
  have hends : -brink < brink := by linarith
  cases hu with
  | notANumber => exact absurd rfl hu'
  | infinity s =>
      cases hv with
      | notANumber => exact absurd rfl hv'
      | infinity t =>
          cases s <;> cases t
          · exact congrArg some (compare_eq_iff_eq.mpr rfl).symm
          · exact congrArg some (compare_lt_iff_lt.mpr hends).symm
          · exact congrArg some (compare_gt_iff_gt.mpr hends).symm
          · exact congrArg some (compare_eq_iff_eq.mpr rfl).symm
      | number h =>
          obtain ⟨hlow, hhigh⟩ := abs_lt.mp (abs_worth_lt h)
          rw [place_of_isNumber h]
          cases s
          · change _ = some (compare (-brink) _)
            rw [compare_lt_iff_lt.mpr hlow]
            cases h <;> rfl
          · change _ = some (compare brink _)
            rw [compare_gt_iff_gt.mpr hhigh]
            cases h <;> rfl
  | number h =>
      cases hv with
      | notANumber => exact absurd rfl hv'
      | infinity t =>
          obtain ⟨hlow, hhigh⟩ := abs_lt.mp (abs_worth_lt h)
          rw [place_of_isNumber h]
          cases t
          · change _ = some (compare _ (-brink))
            rw [compare_gt_iff_gt.mpr hlow]
            cases h <;> rfl
          · change _ = some (compare _ brink)
            rw [compare_lt_iff_lt.mpr hhigh]
            cases h <;> rfl
      | number h' =>
          rw [place_of_isNumber h, place_of_isNumber h']
          exact compare_worth h h'

end Places

section Order

variable {x y a : Float} {r r' : ℚ}

/-- The place of a double in the order. -/
def rank (x : Float) : ℚ :=
  place (parts x)

/-- A double that can be compared with others. -/
def IsOrdered (x : Float) : Prop :=
  parts x ≠ .notANumber

theorem compare_of_not_isOrdered (h : ¬ (IsOrdered x ∧ IsOrdered y)) :
    (parts x).compare (parts y) = none := by
  rw [IsOrdered, IsOrdered, not_and_or, not_not, not_not] at h
  rcases h with h | h
  · rw [h]
    rfl
  · rw [h]
    cases parts x <;> rfl

theorem compare_of_isOrdered (hx : IsOrdered x) (hy : IsOrdered y) :
    (parts x).compare (parts y) = some (compare (rank x) (rank y)) :=
  compare_eq (isCanonical_parts x) (isCanonical_parts y) hx hy

theorem lt_iff_rank : x < y ↔ IsOrdered x ∧ IsOrdered y ∧ rank x < rank y := by
  rw [lt_iff]
  by_cases h : IsOrdered x ∧ IsOrdered y
  · rw [compare_of_isOrdered h.1 h.2, Option.some.injEq, compare_lt_iff_lt, ← and_assoc,
      and_iff_right h]
  · rw [compare_of_not_isOrdered h, ← and_assoc]
    simp [h]

theorem le_iff_rank : x ≤ y ↔ IsOrdered x ∧ IsOrdered y ∧ rank x ≤ rank y := by
  have hle : x ≤ y ↔ ((parts x).compare (parts y)).any (·.isLE) = true := by
    change (Float.le x y : Prop) ↔ _
    rw [Float.le, decide_eq_true_iff]
    rfl
  rw [hle]
  by_cases h : IsOrdered x ∧ IsOrdered y
  · rw [compare_of_isOrdered h.1 h.2, ← and_assoc, and_iff_right h]
    exact Ordering.isLE_iff_ne_gt.trans compare_le_iff_le
  · rw [compare_of_not_isOrdered h, ← and_assoc]
    simp [h]

theorem beq_iff_rank : (x == y) = true ↔ IsOrdered x ∧ IsOrdered y ∧ rank x = rank y := by
  have hbeq : (x == y) = ((parts x).compare (parts y) == some .eq) := rfl
  rw [hbeq, beq_iff_eq]
  by_cases h : IsOrdered x ∧ IsOrdered y
  · rw [compare_of_isOrdered h.1 h.2, Option.some.injEq, compare_eq_iff_eq, ← and_assoc,
      and_iff_right h]
  · rw [compare_of_not_isOrdered h, ← and_assoc]
    simp [h]

theorem isOrdered_of_isNumber (h : IsNumber (parts x)) : IsOrdered x := by
  intro hnan
  rw [hnan] at h
  cases h

theorem rank_of_isNumber (h : IsNumber (parts x)) : rank x = value x :=
  place_of_isNumber h

theorem abs_rank_le (x : Float) : |rank x| ≤ brink :=
  abs_place_le (isCanonical_parts x)

theorem isNumber_of_abs_rank_lt (h : IsOrdered x) (hlt : |rank x| < brink) :
    IsNumber (parts x) := by
  have hcanonical := isCanonical_parts x
  rw [rank] at hlt
  rw [IsOrdered] at h
  generalize parts x = u at *
  cases hcanonical with
  | notANumber => exact absurd rfl h
  | infinity s =>
      rw [place, abs_signed, abs_of_pos brink_pos] at hlt
      exact absurd hlt (lt_irrefl _)
  | number hnumber => exact hnumber

theorem isNumber_of_le_of_le {b : Float} (ha : IsNumber (parts a)) (hb : IsNumber (parts b))
    (hax : a ≤ x) (hxb : x ≤ b) : IsNumber (parts x) := by
  obtain ⟨-, hordered, hlow⟩ := le_iff_rank.mp hax
  obtain ⟨-, -, hhigh⟩ := le_iff_rank.mp hxb
  rw [rank_of_isNumber ha] at hlow
  rw [rank_of_isNumber hb] at hhigh
  have ha' := abs_lt.mp (abs_worth_lt ha)
  have hb' := abs_lt.mp (abs_worth_lt hb)
  apply isNumber_of_abs_rank_lt hordered
  rw [abs_lt]
  exact ⟨ha'.1.trans_le hlow, hhigh.trans_lt hb'.2⟩

theorem value_le_iff (hx : IsNumber (parts x)) (hy : IsNumber (parts y)) :
    x ≤ y ↔ value x ≤ value y := by
  rw [le_iff_rank, rank_of_isNumber hx, rank_of_isNumber hy,
    and_iff_right (isOrdered_of_isNumber hx), and_iff_right (isOrdered_of_isNumber hy)]

theorem value_lt_iff (hx : IsNumber (parts x)) (hy : IsNumber (parts y)) :
    x < y ↔ value x < value y := by
  rw [lt_iff_rank, rank_of_isNumber hx, rank_of_isNumber hy,
    and_iff_right (isOrdered_of_isNumber hx), and_iff_right (isOrdered_of_isNumber hy)]

theorem value_beq_iff (hx : IsNumber (parts x)) (hy : IsNumber (parts y)) :
    (x == y) = true ↔ value x = value y := by
  rw [beq_iff_rank, rank_of_isNumber hx, rank_of_isNumber hy,
    and_iff_right (isOrdered_of_isNumber hx), and_iff_right (isOrdered_of_isNumber hy)]

theorem float_le_of_lt (h : x < y) : x ≤ y := by
  obtain ⟨hx, hy, hlt⟩ := lt_iff_rank.mp h
  exact le_iff_rank.mpr ⟨hx, hy, hlt.le⟩

theorem float_le_trans {z : Float} (hxy : x ≤ y) (hyz : y ≤ z) : x ≤ z := by
  obtain ⟨hx, -, hle⟩ := le_iff_rank.mp hxy
  obtain ⟨-, hz, hle'⟩ := le_iff_rank.mp hyz
  exact le_iff_rank.mpr ⟨hx, hz, hle.trans hle'⟩

theorem float_lt_of_le_of_lt {z : Float} (hxy : x ≤ y) (hyz : y < z) : x < z := by
  obtain ⟨hx, -, hle⟩ := le_iff_rank.mp hxy
  obtain ⟨-, hz, hlt⟩ := lt_iff_rank.mp hyz
  exact lt_iff_rank.mpr ⟨hx, hz, hle.trans_lt hlt⟩

theorem float_lt_of_lt_of_le {z : Float} (hxy : x < y) (hyz : y ≤ z) : x < z := by
  obtain ⟨hx, -, hlt⟩ := lt_iff_rank.mp hxy
  obtain ⟨-, hz, hle⟩ := le_iff_rank.mp hyz
  exact lt_iff_rank.mpr ⟨hx, hz, hlt.trans_le hle⟩

theorem float_le_iff_not_lt (hx : IsOrdered x) (hy : IsOrdered y) : x ≤ y ↔ ¬ y < x := by
  rw [le_iff_rank, lt_iff_rank, and_iff_right hx, and_iff_right hy, and_iff_right hy,
    and_iff_right hx, not_lt]

/-- Rounded results are ordered as the exact ones. -/
theorem IsResult.le (h : IsResult r (parts x)) (h' : IsResult r' (parts y))
    (hle : r ≤ r') : x ≤ y :=
  le_iff_rank.mpr ⟨h.ne_notANumber, h'.ne_notANumber, h.mono h' hle⟩

theorem isResult_value (hx : IsNumber (parts x)) : IsResult (value x) (parts x) :=
  isResult_worth hx

theorem isResult_sum (hx : IsNumber (parts x)) (hy : IsNumber (parts y)) :
    IsResult (value x + value y) (parts (x + y)) :=
  isResult_add hx hy

theorem isResult_difference (hx : IsNumber (parts x)) (hy : IsNumber (parts y)) :
    IsResult (value x - value y) (parts (x - y)) :=
  isResult_sub hx hy

theorem isResult_product (hx : IsNumber (parts x)) (hy : IsNumber (parts y)) :
    IsResult (value x * value y) (parts (x * y)) :=
  isResult_mul hx hy

theorem isResult_quotient (hx : IsNumber (parts x)) (hy : IsNumber (parts y))
    (hne : value y ≠ 0) :
    IsResult (value x / value y) (parts (x / y)) :=
  isResult_div hx hy hne

theorem isInfinite_or_isNumber (hx : IsOrdered x) :
    (∃ s, parts x = .infinity s) ∨ IsNumber (parts x) := by
  have hcanonical := isCanonical_parts x
  rw [IsOrdered] at hx
  generalize parts x = u at *
  cases hcanonical with
  | notANumber => exact absurd rfl hx
  | infinity s => exact Or.inl ⟨s, rfl⟩
  | number h => exact Or.inr h

theorem rank_of_infinity {s : Sign} (hx : parts x = .infinity s) : rank x = signed s brink := by
  rw [rank, hx, place]

/-- A function that rounds the values of a monotone one, and leaves the infinities where they are,
keeps the order. -/
theorem le_of_isResult {f : Float → Float} {g : ℚ → ℚ} (hmono : Monotone g)
    (hnumber : ∀ {x : Float}, IsNumber (parts x) → IsResult (g (value x)) (parts (f x)))
    (hinfinity : ∀ {x : Float} {s : Sign}, parts x = .infinity s → parts (f x) = .infinity s)
    (h : x ≤ y) :
    f x ≤ f y := by
  have hordered : ∀ {z : Float}, IsOrdered z → IsOrdered (f z) := by
    intro z hz
    rcases isInfinite_or_isNumber hz with ⟨s, hs⟩ | hz
    · rw [IsOrdered, hinfinity hs]
      nofun
    · exact (hnumber hz).ne_notANumber
  obtain ⟨hx, hy, hle⟩ := le_iff_rank.mp h
  refine le_iff_rank.mpr ⟨hordered hx, hordered hy, ?_⟩
  rcases isInfinite_or_isNumber hx with ⟨s, hs⟩ | hxnumber
  · rcases isInfinite_or_isNumber hy with ⟨t, ht⟩ | hynumber
    · rw [rank_of_infinity hs, rank_of_infinity ht] at hle
      rw [rank_of_infinity (hinfinity hs), rank_of_infinity (hinfinity ht)]
      exact hle
    · cases s with
      | negative =>
          rw [rank_of_infinity (hinfinity hs)]
          exact (abs_le.mp (abs_rank_le (f y))).1
      | positive =>
          rw [rank_of_infinity hs, rank_of_isNumber hynumber] at hle
          exact absurd (abs_lt.mp (abs_worth_lt hynumber)).2 (not_lt.mpr hle)
  · rcases isInfinite_or_isNumber hy with ⟨t, ht⟩ | hynumber
    · cases t with
      | negative =>
          rw [rank_of_infinity ht, rank_of_isNumber hxnumber] at hle
          exact absurd (abs_lt.mp (abs_worth_lt hxnumber)).1 (not_lt.mpr hle)
      | positive =>
          rw [rank_of_infinity (hinfinity ht)]
          exact (abs_le.mp (abs_rank_le (f x))).2
    · rw [rank_of_isNumber hxnumber, rank_of_isNumber hynumber] at hle
      exact (hnumber hxnumber).mono (hnumber hynumber) (hmono hle)

theorem eq_positive_of_worth_pos {s : Sign} {m : Nat} {e : Int} {hm : 0 < m}
    (h : 0 < worth (.finite s m e hm)) : s = .positive := by
  cases s with
  | negative =>
      have hsize : (0 : ℚ) < m * 2 ^ e := mul_pos (Nat.cast_pos.mpr hm) (zpow_pos two_pos e)
      exact absurd h (not_lt.mpr (neg_nonpos.mpr hsize.le))
  | positive => rfl

theorem sum_mono (ha : IsNumber (parts a)) (h : x ≤ y) : a + x ≤ a + y := by
  apply le_of_isResult (f := (a + ·)) (g := (value a + ·)) _ (isResult_sum ha) _ h
  · exact fun _ _ hle => by dsimp only; linarith
  · intro x s hs
    rw [parts_add, hs]
    generalize parts a = u at ha
    cases ha with
    | zero t => exact settle_of_isCanonical (.infinity s)
    | finite t m e hm => exact settle_of_isCanonical (.infinity s)

theorem product_mono (ha : IsNumber (parts a)) (hpos : 0 < value a) (h : x ≤ y) :
    a * x ≤ a * y := by
  apply le_of_isResult (f := (a * ·)) (g := (value a * ·)) _ (isResult_product ha) _ h
  · exact fun _ _ hle => mul_le_mul_of_nonneg_left hle hpos.le
  · intro x s hs
    rw [parts_mul, hs]
    rw [value] at hpos
    generalize parts a = u at ha hpos
    cases ha with
    | zero t => exact absurd hpos (lt_irrefl 0)
    | finite t m e hm =>
        obtain rfl := eq_positive_of_worth_pos hpos
        cases s
        · exact settle_of_isCanonical (.infinity .negative)
        · exact settle_of_isCanonical (.infinity .positive)

theorem quotient_mono (ha : IsNumber (parts a)) (hpos : 0 < value a) (h : x ≤ y) :
    x / a ≤ y / a := by
  apply le_of_isResult (f := (· / a)) (g := (· / value a)) _ (fun hx =>
    isResult_quotient hx ha hpos.ne') _ h
  · exact fun _ _ hle => div_le_div_of_nonneg_right hle hpos.le
  · intro x s hs
    rw [parts_div, hs]
    rw [value] at hpos
    generalize parts a = u at ha hpos
    cases ha with
    | zero t => exact absurd hpos (lt_irrefl 0)
    | finite t m e hm =>
        obtain rfl := eq_positive_of_worth_pos hpos
        cases s
        · exact settle_of_isCanonical (.infinity .negative)
        · exact settle_of_isCanonical (.infinity .positive)

/-- A number from zero to one. -/
structure IsFraction (x : Float) : Prop where
  isNumber : IsNumber (parts x)
  nonneg : 0 ≤ value x
  le_one : value x ≤ 1

theorem isNumber_zero : IsNumber (parts 0.0) :=
  .zero _

theorem isNumber_one : IsNumber (parts 1.0) := by
  rw [parts_one]
  exact .finite _ _ _ _ (by decide) (by decide) (by decide) (Or.inl le_rfl)

theorem isResult_zero_parts : IsResult 0 (parts 0.0) :=
  isResult_worth isNumber_zero

theorem isResult_one_parts : IsResult 1 (parts 1.0) := by
  rw [← value_one]
  exact isResult_value isNumber_one

theorem isFraction_zero : IsFraction 0.0 :=
  ⟨isNumber_zero, value_zero.ge, value_zero.le.trans zero_le_one⟩

theorem isFraction_one : IsFraction 1.0 :=
  ⟨isNumber_one, zero_le_one.trans value_one.ge, value_one.le⟩

theorem isFraction_iff : IsFraction x ↔ 0.0 ≤ x ∧ x ≤ 1.0 := by
  constructor
  · intro h
    rw [value_le_iff isNumber_zero h.isNumber, value_le_iff h.isNumber isNumber_one,
      value_zero, value_one]
    exact ⟨h.nonneg, h.le_one⟩
  · rintro ⟨hlow, hhigh⟩
    have hnumber := isNumber_of_le_of_le isNumber_zero isNumber_one hlow hhigh
    rw [value_le_iff isNumber_zero hnumber, value_zero] at hlow
    rw [value_le_iff hnumber isNumber_one, value_one] at hhigh
    exact ⟨hnumber, hlow, hhigh⟩

theorem IsFraction.le_refl (h : IsFraction x) : x ≤ x :=
  (value_le_iff h.isNumber h.isNumber).mpr le_rfl

theorem IsFraction.le_iff_not_lt (hx : IsFraction x) (hy : IsFraction y) : x ≤ y ↔ ¬ y < x :=
  float_le_iff_not_lt (isOrdered_of_isNumber hx.isNumber) (isOrdered_of_isNumber hy.isNumber)

theorem exists_multiple {u : Float.Model.UnpackedFloat} (h : IsNumber u) :
    ∃ k : Int, worth u = k * leastPositive := by
  rw [leastPositive]
  cases h with
  | zero s => exact ⟨0, by rw [Int.cast_zero, zero_mul, worth_zero]⟩
  | finite s m e hpos hm hlow hhigh hnormal =>
      generalize (-1074 : Int) = least at hlow ⊢
      refine ⟨s.apply ((m <<< (e - least).toNat : Nat) : Int), ?_⟩
      rw [worth_finite, cast_apply s hlow]

theorem isNumber_leastPositive : IsNumber (.finite .positive 1 (-1074) Nat.one_pos) :=
  .finite _ _ _ _ (by decide) le_rfl (by decide) (Or.inr rfl)

theorem worth_leastPositive :
    worth (.finite .positive 1 (-1074) Nat.one_pos) = leastPositive := by
  rw [worth_finite, signed, leastPositive, Nat.cast_one, one_mul]

theorem difference_pos (hx : IsNumber (parts x)) (hy : IsNumber (parts y))
    (h : value x < value y) :
    0.0 < y - x := by
  obtain ⟨k, hk⟩ := exists_multiple hx
  obtain ⟨l, hl⟩ := exists_multiple hy
  have hleast := leastPositive_pos
  have hstep : leastPositive ≤ value y - value x := by
    change worth (parts x) < worth (parts y) at h
    change leastPositive ≤ worth (parts y) - worth (parts x)
    rw [hk, hl] at h ⊢
    have hkl : k + 1 ≤ l := Int.cast_lt.mp (lt_of_mul_lt_mul_right h hleast.le)
    have hkl' : (k : ℚ) + 1 ≤ l := by exact_mod_cast hkl
    nlinarith
  have hresult := isResult_worth isNumber_leastPositive
  rw [worth_leastPositive] at hresult
  have hle := hresult.mono (isResult_difference hy hx) hstep
  rw [place_of_isNumber isNumber_leastPositive, worth_leastPositive] at hle
  refine lt_iff_rank.mpr ⟨isOrdered_of_isNumber isNumber_zero,
    (isResult_difference hy hx).ne_notANumber, ?_⟩
  rw [rank_of_isNumber isNumber_zero, value_zero]
  exact hleast.trans_le hle

theorem isFraction_difference (hx : IsFraction x) (hy : IsFraction y) (h : value x ≤ value y) :
    IsFraction (y - x) := by
  have hresult := isResult_difference hy.isNumber hx.isNumber
  rw [isFraction_iff]
  have hbounds := hx.nonneg
  have hbounds' := hy.le_one
  exact ⟨isResult_zero_parts.le hresult (by linarith),
    hresult.le isResult_one_parts (by linarith)⟩

theorem worth_finite_ne_zero (s : Sign) (m : Nat) (e : Int) (hm : 0 < m) :
    worth (.finite s m e hm) ≠ 0 := by
  rw [← abs_pos, worth_finite, abs_signed, abs_pos]
  exact (mul_pos (Nat.cast_pos.mpr hm) (zpow_pos two_pos e)).ne'

theorem mul_pos_of_le (ha : IsNumber (parts a)) (hamount : IsAmount (parts a)) (h : x ≤ y)
    (hpos : 0.0 < a * x) : 0.0 < a * y := by
  rcases hamount.worth_nonneg.lt_or_eq with hlt | hzero
  · exact float_lt_of_lt_of_le hpos (product_mono ha hlt h)
  · -- Nothing comes of a factor of zero.
    obtain ⟨hx, -, -⟩ := le_iff_rank.mp h
    exfalso
    obtain ⟨-, hproduct, hrank⟩ := lt_iff_rank.mp hpos
    rcases isInfinite_or_isNumber hx with ⟨s, hs⟩ | hx
    · apply hproduct
      rw [parts_mul, hs]
      generalize parts a = u at ha hzero
      cases ha with
      | zero t => exact settle_of_isCanonical .notANumber
      | finite t m e hm => exact absurd hzero.symm (worth_finite_ne_zero t m e hm)
    · have hnone : IsResult 0 (parts (a * x)) := by
        have hresult := isResult_product ha hx
        rwa [value, ← hzero, zero_mul] at hresult
      have hle := hnone.mono (isResult_worth (.zero .positive)) le_rfl
      rw [rank_of_isNumber isNumber_zero, value_zero] at hrank
      exact absurd hrank (not_lt.mpr hle)

end Order

end StorageLoad.Double
