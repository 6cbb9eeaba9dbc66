import StorageLoad.Config.Settings
import StorageLoad.Proofs.Double.Order

/-!
The course of a weight curve.  Along each line the weight only grows or only shrinks, rounding
included (`IsLine.line_le_line`), so that what a curve comes to at the ends of its lines tells
whether its weight comes back after it was gone (`pos_of_later`).
-/

namespace StorageLoad

open Double

/-- A breakpoint in the run, with a weight that is a number and not below zero. -/
structure Breakpoint.IsSound (p : Breakpoint Float) : Prop where
  fraction : IsFraction p.fraction
  isNumber : IsNumber (parts p.weight)
  nonneg : 0 ≤ value p.weight

namespace Curve

section Definitions

variable {𝕜 : Type} [Add 𝕜] [Sub 𝕜] [Mul 𝕜] [Div 𝕜] [LT 𝕜] [BEq 𝕜] [OfScientific 𝕜]
  [DecidableLT 𝕜]

/-- What the lines between breakpoints come to at their two ends, one line after the other, and
then the last weight. -/
def ends : List (Breakpoint 𝕜) → List 𝕜
  | [] => []
  | [p] => [p.weight]
  | p :: q :: points =>
      if p.fraction < q.fraction then line p q p.fraction :: line p q q.fraction ::
        ends (q :: points)
      else ends (q :: points)

/-- The weights at the turns of a curve: at the start of the run, and at the ends of its lines. -/
def levels : Curve 𝕜 → List 𝕜
  | constant w => [w]
  | linear points => interpolate points (0.0 : 𝕜) :: ends points

variable {p q : Breakpoint 𝕜} {points : List (Breakpoint 𝕜)} {x : 𝕜}

theorem interpolate_before (h : x < p.fraction) : interpolate (p :: points) x = p.weight := by
  simp [interpolate, h]

theorem interpolate_last (h : ¬ x < p.fraction) : interpolate [p] x = p.weight := by
  simp [interpolate, h]

theorem interpolate_line (hp : ¬ x < p.fraction) (hq : x < q.fraction) :
    interpolate (p :: q :: points) x = line p q x := by
  simp [interpolate, hp, hq]

theorem interpolate_behind (hp : ¬ x < p.fraction) (hq : ¬ x < q.fraction) :
    interpolate (p :: q :: points) x = interpolate (q :: points) x := by
  simp [interpolate, hp, hq, List.getLast?_cons]

end Definitions

section Line

/-- Two breakpoints, one after the other, with a line between them. -/
structure IsLine (p q : Breakpoint Float) : Prop where
  left : p.IsSound
  right : q.IsSound
  lt : p.fraction < q.fraction

namespace IsLine

variable {p q : Breakpoint Float} {x y : Float} {P : Float → Prop}

theorem value_lt (h : IsLine p q) : value p.fraction < value q.fraction :=
  (value_lt_iff h.left.fraction.isNumber h.right.fraction.isNumber).mp h.lt

theorem line_eq (h : IsLine p q) (x : Float) : line p q x =
    p.weight + (q.weight - p.weight) * (x - p.fraction) / (q.fraction - p.fraction) := by
  have hapart : ¬ (q.fraction == p.fraction) = true := by
    rw [value_beq_iff h.right.fraction.isNumber h.left.fraction.isNumber]
    exact h.value_lt.ne'
  rw [line, if_neg hapart]

theorem isNumber_rise (h : IsLine p q) : IsNumber (parts (q.weight - p.weight)) := by
  have hresult := isResult_difference h.right.isNumber h.left.isNumber
  have hp := h.left.nonneg
  have hq := h.right.nonneg
  rcases le_total (value p.weight) (value q.weight) with hle | hle
  · refine (hresult.abs_le h.right.isNumber ?_).1
    change _ ≤ |value q.weight|
    rw [abs_of_nonneg (by linarith), abs_of_nonneg hq]
    linarith
  · refine (hresult.abs_le h.left.isNumber ?_).1
    change _ ≤ |value p.weight|
    rw [abs_of_nonpos (by linarith), abs_of_nonneg hp]
    linarith

/-- Along a line the weight goes one way. -/
theorem line_le_line (h : IsLine p q) (hx : IsFraction x) (hy : IsFraction y)
    (hpx : p.fraction ≤ x) (hxy : x ≤ y) :
    (value p.weight ≤ value q.weight → line p q x ≤ line p q y) ∧
      (value q.weight ≤ value p.weight → line p q y ≤ line p q x) := by
  rw [h.line_eq, h.line_eq]
  have hpx' := (value_le_iff h.left.fraction.isNumber hx.isNumber).mp hpx
  have hxy' := (value_le_iff hx.isNumber hy.isNumber).mp hxy
  have hrise := isResult_difference h.right.isNumber h.left.isNumber
  have halong := isFraction_difference h.left.fraction hx hpx'
  have halong' := isFraction_difference h.left.fraction hy (hpx'.trans hxy')
  have hfurther : value (x - p.fraction) ≤ value (y - p.fraction) := by
    rw [← value_le_iff halong.isNumber halong'.isNumber]
    exact (isResult_difference hx.isNumber h.left.fraction.isNumber).le
      (isResult_difference hy.isNumber h.left.fraction.isNumber) (by linarith)
  have hwhole := isFraction_difference h.left.fraction h.right.fraction h.value_lt.le
  have hwhole' : 0 < value (q.fraction - p.fraction) := by
    have hpos := difference_pos h.left.fraction.isNumber h.right.fraction.isNumber h.value_lt
    rwa [value_lt_iff isNumber_zero hwhole.isNumber, value_zero] at hpos
  have hproduct := isResult_product h.isNumber_rise halong.isNumber
  have hproduct' := isResult_product h.isNumber_rise halong'.isNumber
  constructor
  · intro hup
    have hnonneg : 0 ≤ value (q.weight - p.weight) := by
      rw [← value_zero, ← value_le_iff isNumber_zero h.isNumber_rise]
      exact isResult_zero_parts.le hrise (by linarith)
    refine sum_mono h.left.isNumber (quotient_mono hwhole.isNumber hwhole' ?_)
    exact hproduct.le hproduct' (mul_le_mul_of_nonneg_left hfurther hnonneg)
  · intro hdown
    have hnonpos : value (q.weight - p.weight) ≤ 0 := by
      rw [← value_zero, ← value_le_iff h.isNumber_rise isNumber_zero]
      exact hrise.le isResult_zero_parts (by linarith)
    refine sum_mono h.left.isNumber (quotient_mono hwhole.isNumber hwhole' ?_)
    exact hproduct'.le hproduct (mul_le_mul_of_nonpos_left hfurther hnonpos)

variable (hP : ∀ {v w : Float}, v ≤ w → P v → P w)

include hP

theorem of_point (h : IsLine p q) (hx : IsFraction x) (hpx : p.fraction ≤ x)
    (hxq : x ≤ q.fraction) (hpoint : P (line p q x)) :
    P (line p q p.fraction) ∨ P (line p q q.fraction) := by
  rcases le_total (value p.weight) (value q.weight) with hle | hle
  · exact Or.inr (hP ((h.line_le_line hx h.right.fraction hpx hxq).1 hle) hpoint)
  · exact Or.inl
      (hP ((h.line_le_line h.left.fraction hx h.left.fraction.le_refl hpx).2 hle) hpoint)

theorem of_ends (h : IsLine p q) (hx : IsFraction x) (hpx : p.fraction ≤ x) (hxq : x ≤ q.fraction)
    (hleft : P (line p q p.fraction)) (hright : P (line p q q.fraction)) : P (line p q x) := by
  rcases le_total (value p.weight) (value q.weight) with hle | hle
  · exact hP ((h.line_le_line h.left.fraction hx h.left.fraction.le_refl hpx).1 hle) hleft
  · exact hP ((h.line_le_line hx h.right.fraction hpx hxq).2 hle) hright

theorem of_later (h : IsLine p q) (hx : IsFraction x) (hy : IsFraction y) (hpx : p.fraction ≤ x)
    (hxy : x ≤ y) (hyq : y ≤ q.fraction)
    (hends : P (line p q q.fraction) → P (line p q p.fraction)) (hlater : P (line p q y)) :
    P (line p q x) := by
  rcases le_total (value p.weight) (value q.weight) with hle | hle
  · have hpy := float_le_trans hpx hxy
    have hright := hP ((h.line_le_line hy h.right.fraction hpy hyq).1 hle) hlater
    exact hP ((h.line_le_line h.left.fraction hx h.left.fraction.le_refl hpx).1 hle)
      (hends hright)
  · exact hP ((h.line_le_line hx hy hpx hxy).2 hle) hlater

end IsLine

end Line

section Path

/-- Breakpoints in ascending order. -/
structure IsPath (points : List (Breakpoint Float)) : Prop where
  sound : ∀ p ∈ points, p.IsSound
  sorted : points.Pairwise fun p q => p.fraction ≤ q.fraction

variable {p q : Breakpoint Float} {points : List (Breakpoint Float)} {x y : Float}
  {P : Float → Prop}

theorem IsPath.tail (h : IsPath (p :: points)) : IsPath points where
  sound := (List.forall_mem_cons.mp h.sound).2
  sorted := (List.pairwise_cons.mp h.sorted).2

theorem IsPath.head (h : IsPath (p :: points)) : p.IsSound :=
  (List.forall_mem_cons.mp h.sound).1

theorem IsPath.isLine (h : IsPath (p :: q :: points)) (hlt : p.fraction < q.fraction) :
    IsLine p q :=
  ⟨h.head, h.tail.head, hlt⟩

theorem mem_ends_of_mem {w : Float} (h : w ∈ ends (q :: points)) :
    w ∈ ends (p :: q :: points) := by
  rw [ends]
  split
  · exact List.mem_cons_of_mem _ (List.mem_cons_of_mem _ h)
  · exact h

variable (hP : ∀ {v w : Float}, v ≤ w → P v → P w)

include hP

theorem exists_mem_ends (h : IsPath (p :: points)) (hx : IsFraction x) (hpx : p.fraction ≤ x)
    (hpoint : P (interpolate (p :: points) x)) : ∃ w ∈ ends (p :: points), P w := by
  have hnot := (h.head.fraction.le_iff_not_lt hx).mp hpx
  induction points generalizing p with
  | nil =>
      rw [interpolate_last hnot] at hpoint
      exact ⟨p.weight, List.mem_singleton_self _, hpoint⟩
  | cons q points ih =>
      by_cases hxq : x < q.fraction
      · have hline := h.isLine (float_lt_of_le_of_lt hpx hxq)
        rw [interpolate_line hnot hxq] at hpoint
        rw [ends, if_pos hline.lt]
        rcases hline.of_point hP hx hpx (float_le_of_lt hxq) hpoint with hend | hend
        · exact ⟨_, by simp, hend⟩
        · exact ⟨_, by simp, hend⟩
      · rw [interpolate_behind hnot hxq] at hpoint
        have hqx := (h.tail.head.fraction.le_iff_not_lt hx).mpr hxq
        obtain ⟨w, hw, hend⟩ := ih h.tail hqx hpoint hxq
        exact ⟨w, mem_ends_of_mem hw, hend⟩

/-- If at the ends of lines it never comes back, it does not come back anywhere. -/
theorem of_later (h : IsPath (p :: points)) (hx : IsFraction x) (hy : IsFraction y)
    (hpx : p.fraction ≤ x) (hxy : x ≤ y)
    (hends : (ends (p :: points)).Pairwise fun v w => P w → P v)
    (hlater : P (interpolate (p :: points) y)) : P (interpolate (p :: points) x) := by
  induction points generalizing p with
  | nil =>
      rw [interpolate_last ((h.head.fraction.le_iff_not_lt hx).mp hpx)]
      rwa [interpolate_last ((h.head.fraction.le_iff_not_lt hy).mp (float_le_trans hpx hxy))]
        at hlater
  | cons q points ih =>
      have hnot := (h.head.fraction.le_iff_not_lt hx).mp hpx
      have hpy := float_le_trans hpx hxy
      have hnot' := (h.head.fraction.le_iff_not_lt hy).mp hpy
      have hq := h.tail.head.fraction
      by_cases hyq : y < q.fraction
      · -- Both are on the first line.
        have hline := h.isLine (float_lt_of_le_of_lt hpy hyq)
        have hxq := float_lt_of_le_of_lt hxy hyq
        rw [ends, if_pos hline.lt, List.pairwise_cons] at hends
        rw [interpolate_line hnot' hyq] at hlater
        rw [interpolate_line hnot hxq]
        exact hline.of_later hP hx hy hpx hxy (float_le_of_lt hyq) (hends.1 _ (by simp)) hlater
      by_cases hxq : x < q.fraction
      · -- Only the earlier one is on the first line.
        have hline := h.isLine (float_lt_of_le_of_lt hpx hxq)
        rw [ends, if_pos hline.lt, List.pairwise_cons, List.pairwise_cons] at hends
        rw [interpolate_behind hnot' hyq] at hlater
        rw [interpolate_line hnot hxq]
        obtain ⟨w, hw, hend⟩ :=
          exists_mem_ends hP h.tail hy ((hq.le_iff_not_lt hy).mpr hyq) hlater
        have hleft := hends.1 w (List.mem_cons_of_mem _ hw) hend
        exact hline.of_ends hP hx hpx (float_le_of_lt hxq) hleft (hends.2.1 w hw hend)
      · rw [interpolate_behind hnot' hyq] at hlater
        rw [interpolate_behind hnot hxq]
        refine ih h.tail ((hq.le_iff_not_lt hx).mpr hxq) ?_ hlater
        rw [ends] at hends
        split at hends
        · exact hends.tail.tail
        · exact hends

end Path

/-- A curve whose weights are numbers that are not below zero, at fractions of the run in
ascending order. -/
inductive IsSound : Curve Float → Prop
  | constant (w : Float) : IsSound (.constant w)
  | linear {p : Breakpoint Float} {points : List (Breakpoint Float)} : IsPath (p :: points) →
      IsSound (.linear (p :: points))

variable {c : Curve Float} {x y : Float} {P : Float → Prop}

theorem IsSound.of_later (h : c.IsSound) (hP : ∀ {v w : Float}, v ≤ w → P v → P w)
    (hx : IsFraction x) (hy : IsFraction y) (hxy : x ≤ y)
    (hlevels : c.levels.Pairwise fun v w => P w → P v) (hlater : P (c.weight y)) :
    P (c.weight x) := by
  cases h with
  | constant w => exact hlater
  | @linear p points h =>
      rw [weight] at hlater ⊢
      rw [levels, List.pairwise_cons] at hlevels
      have hfirst := h.head.fraction
      by_cases hpx : p.fraction ≤ x
      · exact Curve.of_later hP h hx hy hpx hxy hlevels.2 hlater
      have hbefore := not_not.mp (mt (hfirst.le_iff_not_lt hx).mpr hpx)
      -- Up to the first breakpoint the curve is what it is at the start.
      have hstart : interpolate (p :: points) 0.0 = interpolate (p :: points) x := by
        rw [interpolate_before hbefore]
        exact interpolate_before (float_lt_of_le_of_lt (isFraction_iff.mp hx).1 hbefore)
      by_cases hpy : p.fraction ≤ y
      · obtain ⟨w, hw, hend⟩ := exists_mem_ends hP h hy hpy hlater
        rw [← hstart]
        exact hlevels.1 w hw hend
      · have hbefore' := not_not.mp (mt (hfirst.le_iff_not_lt hy).mpr hpy)
        rw [interpolate_before hbefore'] at hlater
        rwa [interpolate_before hbefore]

end Curve

end StorageLoad
