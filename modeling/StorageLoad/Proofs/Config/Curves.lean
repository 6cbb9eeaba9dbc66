import StorageLoad.Proofs.Breakpoints
import StorageLoad.Proofs.Config.Percent
import StorageLoad.Proofs.Config.WellFormed
import StorageLoad.Proofs.Curve

/-!
The curves that a configuration gives its operations.  The breakpoints are put in order whatever
order they come in (`isPath_insertAll`), so that every operation has a sound curve
(`isSound_of_settings`).
-/

namespace StorageLoad

open Double

namespace Curve

section Order

variable {p q : Breakpoint Float} {points : List (Breakpoint Float)}

theorem le_of_precedes (hp : IsFraction p.fraction) (hq : IsFraction q.fraction)
    (h : precedes p q = true) :
    p.fraction ≤ q.fraction := by
  rw [precedes] at h
  split at h
  · rename_i hsame
    rw [value_beq_iff hp.isNumber hq.isNumber] at hsame
    rw [value_le_iff hp.isNumber hq.isNumber]
    exact hsame.le
  · exact float_le_of_lt (of_decide_eq_true h)

theorem le_of_not_precedes (hp : IsFraction p.fraction) (hq : IsFraction q.fraction)
    (h : precedes p q = false) : q.fraction ≤ p.fraction := by
  rw [precedes] at h
  split at h
  · rename_i hsame
    rw [value_beq_iff hp.isNumber hq.isNumber] at hsame
    rw [value_le_iff hq.isNumber hp.isNumber]
    exact hsame.ge
  · exact (hq.le_iff_not_lt hp).mpr (of_decide_eq_false h)

theorem isPath_nil : IsPath [] :=
  ⟨nofun, .nil⟩

theorem isPath_cons : IsPath (q :: points) ↔
    q.IsSound ∧ IsPath points ∧ ∀ p ∈ points, q.fraction ≤ p.fraction := by
  constructor
  · intro h
    exact ⟨h.head, h.tail, (List.pairwise_cons.mp h.sorted).1⟩
  · rintro ⟨hq, hpoints, hle⟩
    exact ⟨List.forall_mem_cons.mpr ⟨hq, hpoints.sound⟩,
      List.pairwise_cons.mpr ⟨hle, hpoints.sorted⟩⟩

theorem agrees_fraction_le : Agrees Breakpoint.IsSound fun p q => p.fraction ≤ q.fraction where
  precedes hp hq := le_of_precedes hp.fraction hq.fraction
  not_precedes hp hq h := le_of_not_precedes hp.fraction hq.fraction (Bool.eq_false_iff.mpr h)
  trans := float_le_trans

/-- Breakpoints inserted one after the other are in order. -/
theorem isPath_insertAll (h : ∀ p ∈ points, p.IsSound) :
    IsPath (points.foldl (fun sorted p => insertPoint p sorted) []) where
  sound p hp := h p ((insertAll_perm [] points).mem_iff.mp hp)
  sorted := pairwise_insertAll agrees_fraction_le h nofun .nil

end Order

section Build

variable {c : Curve Float} {p q : Breakpoint Float} {points : List (Breakpoint Float)}

theorem isFraction_of_checkPoint (h : checkPoint p = .ok q) : q = p ∧ IsFraction p.fraction := by
  rw [checkPoint] at h
  split at h
  · cases h
  · rename_i hinside
    split at h
    · cases h
    · exact ⟨(Except.ok.inj h).symm, isFraction_iff.mpr (not_not.mp hinside)⟩

theorem IsPath.isSound (h : IsPath points) (hne : points ≠ []) : (linear points).IsSound := by
  cases points with
  | nil => exact absurd rfl hne
  | cons p points => exact .linear h

theorem isSound_of_ofPoints (h : ofPoints points = .ok c)
    (hweights : ∀ p ∈ points, IsNumber (parts p.weight) ∧ IsAmount (parts p.weight)) :
    c.IsSound := by
  rw [ofPoints] at h
  split at h
  · cases h
  · rename_i checked hchecked
    split at h
    · cases h
    · rename_i hne
      obtain rfl := Except.ok.inj h
      have hsound : ∀ p ∈ checked, p.IsSound := by
        intro q hq
        obtain ⟨p, hp, hcheck⟩ := exists_of_forall₂ (forall₂_of_mapM hchecked) q hq
        obtain ⟨rfl, hfraction⟩ := isFraction_of_checkPoint hcheck
        exact ⟨hfraction, (hweights q hp).1, (hweights q hp).2.worth_nonneg⟩
      refine (isPath_insertAll hsound).isSound fun hnil => ?_
      have hperm := insertAll_perm [] checked
      rw [hnil] at hperm
      exact hne (List.isEmpty_iff.mpr hperm.nil_eq.symm)

theorem isFraction_tenths : IsFraction 0.1 ∧ IsFraction 0.5 := by
  rw [isFraction_iff, isFraction_iff]
  decide +kernel

theorem isSound_named : ∀ entry ∈ named (𝕜 := Float), entry.2.IsSound := by
  obtain ⟨htenth, hhalf⟩ := isFraction_tenths
  have hzero := isFraction_zero
  have hone := isFraction_one
  have hpoint {x w : Float} (hx : IsFraction x) (hw : IsFraction w) :
      (Breakpoint.mk x w).IsSound :=
    ⟨hx, hw.isNumber, hw.nonneg⟩
  have hlast {x w : Float} (hx : IsFraction x) (hw : IsFraction w) : IsPath [⟨x, w⟩] :=
    isPath_cons.mpr ⟨hpoint hx hw, isPath_nil, nofun⟩
  have hhalf_le : (0.5 : Float) ≤ 1.0 := by decide +kernel
  rw [named, List.forall_mem_cons, List.forall_mem_cons, List.forall_mem_cons,
    List.forall_mem_singleton]
  refine ⟨.constant 1.0, .linear ?_, .linear ?_, .linear ?_⟩
  · refine isPath_cons.mpr ⟨hpoint hzero hone, hlast hone htenth, ?_⟩
    exact List.forall_mem_singleton.mpr (isFraction_iff.mp hone).1
  · refine isPath_cons.mpr ⟨hpoint hzero htenth,
      isPath_cons.mpr ⟨hpoint hhalf hone, hlast hone htenth, ?_⟩, ?_⟩
    · exact List.forall_mem_singleton.mpr hhalf_le
    · exact List.forall_mem_cons.mpr ⟨(isFraction_iff.mp hhalf).1,
        List.forall_mem_singleton.mpr (isFraction_iff.mp hone).1⟩
  · refine isPath_cons.mpr ⟨hpoint hzero htenth, hlast hone hone, ?_⟩
    exact List.forall_mem_singleton.mpr (isFraction_iff.mp hone).1

theorem isSound_of_ofName {name : String} (h : ofName name = .ok c) : c.IsSound := by
  rw [ofName] at h
  split at h
  · rename_i key curve hfind
    obtain rfl := Except.ok.inj h
    exact isSound_named _ (List.mem_of_find?_eq_some hfind)
  · cases h

end Build

end Curve

/-- An operation whose percentage and curve are such as a configuration gives. -/
structure Spec.IsSound (s : Spec Float) : Prop where
  percent : IsPercentage s.percent
  curve : s.curve.IsSound

namespace Options

open Outcome

theorem weights_of_breakpoints {kind : Kind} {v : Value} {points : List (Breakpoint Float)}
    (h : breakpoints kind v = .ok points) :
    ∀ p ∈ points, IsNumber (parts p.weight) ∧ IsAmount (parts p.weight) := by
  obtain ⟨items, -, h⟩ := exists_of_bind h
  intro p hp
  obtain ⟨item, -, hitem⟩ := exists_of_mapM h p hp
  obtain ⟨⟨x, y⟩, -, hitem⟩ := exists_of_bind hitem
  obtain ⟨fraction, -, hitem⟩ := exists_of_bind hitem
  obtain ⟨weight, hweight, hitem⟩ := exists_of_bind hitem
  obtain rfl := Except.ok.inj hitem
  have hpermitted := (Config.of_number hweight).2
  exact ⟨(isFinite_iff weight).mp hpermitted.isFinite, hpermitted.isAmount⟩

theorem isSound_of_curve {kind : Kind} {settings : Options} {c : Curve Float}
    (h : curve kind settings = .ok c) : c.IsSound := by
  unfold curve at h
  dsimp only at h
  split at h
  · cases h
  · have h := eq_ok_of_mapError h
    split at h
    · obtain ⟨points, hpoints, h⟩ := exists_of_bind h
      exact Curve.isSound_of_ofPoints (eq_ok_of_mapError h) (weights_of_breakpoints hpoints)
    · obtain ⟨name, -, h⟩ := exists_of_bind h
      exact Curve.isSound_of_ofName (eq_ok_of_mapError h)

/-- Every operation of a configuration is sound. -/
theorem isSound_of_settings {options : Options} {c : Settings Float}
    (h : options.settings = .ok c) :
    ∀ s ∈ c.operations, s.IsSound := by
  have hspecs := (isReadAs_of_settings h).operations
  obtain ⟨entries, percents, given, limits, -, hpercents, -, -, hrows⟩ :=
    exists_of_operations hspecs
  intro s hs
  obtain ⟨⟨entry, percent, limit⟩, hrow, hspec⟩ := exists_of_mapM hrows s hs
  obtain ⟨curve, hcurve, hspec⟩ := exists_of_bind hspec
  obtain rfl := Except.ok.inj hspec
  have hpercent := (List.of_mem_zip (List.of_mem_zip hrow).2).1
  exact ⟨isPercentage_of_percents hpercents percent hpercent, isSound_of_curve hcurve⟩

end Options

end StorageLoad
