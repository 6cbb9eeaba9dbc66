import StorageLoad.Config.Curve

/-!
Breakpoints put in order, one after the other.  Nothing is lost or added (`insertAll_perm`), and
whatever order agrees with the one of the insertions is the order of the outcome
(`pairwise_insertAll`).
-/

namespace StorageLoad

namespace Curve

theorem drop_half {α : Type} {a : α} {as after : List α}
    (h : as.drop (as.length / 2) = a :: after) :
    as = as.take (as.length / 2) ++ a :: after := by
  rw [← h, List.take_append_drop]

variable {𝕜 : Type} [LT 𝕜] [BEq 𝕜] [DecidableLT 𝕜] {p q : Breakpoint 𝕜}
  {points before : List (Breakpoint 𝕜)}

section Permutation

theorem insertHalving_perm (p : Breakpoint 𝕜) (points : List (Breakpoint 𝕜)) :
    (insertHalving p points).Perm (p :: points) := by
  fun_induction insertHalving p points with
  | case1 points hnone =>
      have hlength := congrArg List.length hnone
      rw [List.length_drop, List.length_nil] at hlength
      obtain rfl : points = [] := List.length_eq_zero_iff.mp (by omega)
      exact .refl _
  | case2 points q after hdrop before hprecedes ih =>
      have hpoints : points = before ++ q :: after := drop_half hdrop
      rw [hpoints]
      exact ih.append_right _
  | case3 points q after hdrop before hprecedes ih =>
      have hpoints : points = before ++ q :: after := drop_half hdrop
      rw [hpoints]
      calc
        List.Perm (before ++ q :: insertHalving p after) (before ++ q :: p :: after) :=
            (ih.cons q).append_left _
        List.Perm _ (before ++ p :: q :: after) := (List.Perm.swap p q after).append_left _
        List.Perm _ (p :: (before ++ q :: after)) := List.perm_middle

theorem mem_insertHalving (h : q ∈ insertHalving p points) : q = p ∨ q ∈ points :=
  List.mem_cons.mp ((insertHalving_perm p points).mem_iff.mp h)

theorem insertPoint_perm (p : Breakpoint 𝕜) (points : List (Breakpoint 𝕜)) :
    (insertPoint p points).Perm (p :: points) := by
  rw [insertPoint]
  split
  · exact insertHalving_perm p points
  · exact List.perm_append_singleton p points

theorem insertAll_perm (before points : List (Breakpoint 𝕜)) :
    (points.foldl (fun sorted p => insertPoint p sorted) before).Perm (before ++ points) := by
  induction points generalizing before with
  | nil =>
      rw [List.append_nil]
      exact .refl _
  | cons p points ih =>
      calc
        List.Perm _ (insertPoint p before ++ points) := ih (insertPoint p before)
        List.Perm _ (p :: before ++ points) := (insertPoint_perm p before).append_right points
        List.Perm _ (before ++ p :: points) := List.perm_middle.symm

end Permutation

section Order

variable {P : Breakpoint 𝕜 → Prop} {R : Breakpoint 𝕜 → Breakpoint 𝕜 → Prop}

/-- An order of the breakpoints of some sort, with which the order of the insertions agrees. -/
structure Agrees (P : Breakpoint 𝕜 → Prop) (R : Breakpoint 𝕜 → Breakpoint 𝕜 → Prop) : Prop where
  precedes : ∀ {p q}, P p → P q → precedes p q → R p q
  not_precedes : ∀ {p q}, P p → P q → ¬ Curve.precedes p q → R q p
  trans : ∀ {p q r}, R p q → R q r → R p r

variable (hR : Agrees P R)

include hR

theorem pairwise_insertHalving (hp : P p) (hpoints : ∀ q ∈ points, P q) (h : points.Pairwise R) :
    (insertHalving p points).Pairwise R := by
  fun_induction insertHalving p points with
  | case1 points hnone => exact List.pairwise_singleton _ _
  | case2 points q after hdrop before hprecedes ih =>
      rw [drop_half hdrop] at h hpoints
      obtain ⟨hbefore, hrest, hle⟩ := List.pairwise_append.mp h
      obtain ⟨hpbefore, hprest⟩ := List.forall_mem_append.mp hpoints
      have hpq : R p q := hR.precedes hp (hprest q List.mem_cons_self) hprecedes
      refine List.pairwise_append.mpr ⟨ih hpbefore hbefore, hrest, fun a ha b hb => ?_⟩
      rcases mem_insertHalving ha with rfl | ha
      · rcases List.mem_cons.mp hb with rfl | hb
        · exact hpq
        · exact hR.trans hpq (List.rel_of_pairwise_cons hrest hb)
      · exact hle a ha b hb
  | case3 points q after hdrop before hprecedes ih =>
      rw [drop_half hdrop] at h hpoints
      obtain ⟨hbefore, hrest, hle⟩ := List.pairwise_append.mp h
      obtain ⟨hqle, hafter⟩ := List.pairwise_cons.mp hrest
      obtain ⟨hq, hpafter⟩ := List.forall_mem_cons.mp (List.forall_mem_append.mp hpoints).2
      have hqp : R q p := hR.not_precedes hp hq hprecedes
      have hqle' : ∀ b ∈ insertHalving p after, R q b := by
        intro b hb
        rcases mem_insertHalving hb with rfl | hb
        · exact hqp
        · exact hqle b hb
      refine List.pairwise_append.mpr
        ⟨hbefore, List.pairwise_cons.mpr ⟨hqle', ih hpafter hafter⟩, fun a ha b hb => ?_⟩
      have haq := hle a ha q List.mem_cons_self
      rcases List.mem_cons.mp hb with rfl | hb
      · exact haq
      · exact hR.trans haq (hqle' b hb)

theorem pairwise_insertPoint (hp : P p) (hpoints : ∀ q ∈ points, P q) (h : points.Pairwise R) :
    (insertPoint p points).Pairwise R := by
  rw [insertPoint]
  split
  · exact pairwise_insertHalving hR hp hpoints h
  · rename_i hlast
    refine List.pairwise_append.mpr ⟨h, List.pairwise_singleton _ _, fun a ha b hb => ?_⟩
    obtain rfl := List.mem_singleton.mp hb
    -- What stands before the last breakpoint is not above it, and that one not above the new one.
    rcases List.eq_nil_or_concat points with rfl | ⟨front, q, rfl⟩
    · cases ha
    · rw [List.concat_eq_append] at h ha hlast hpoints
      rw [List.getLast?_append, List.getLast?_singleton, Option.some_or, Option.any_some] at hlast
      have hqb : R q b :=
        hR.not_precedes hp (hpoints q (List.mem_append_right _ List.mem_cons_self)) hlast
      rcases List.mem_append.mp ha with ha | ha
      · exact hR.trans ((List.pairwise_append.mp h).2.2 a ha q List.mem_cons_self) hqb
      · obtain rfl := List.mem_singleton.mp ha
        exact hqb

theorem pairwise_insertAll (hpoints : ∀ q ∈ points, P q) (hbefore : ∀ q ∈ before, P q)
    (h : before.Pairwise R) :
    (points.foldl (fun sorted p => insertPoint p sorted) before).Pairwise R := by
  induction points generalizing before with
  | nil => exact h
  | cons p points ih =>
      obtain ⟨hp, hpoints⟩ := List.forall_mem_cons.mp hpoints
      refine ih hpoints (fun q hq => ?_) (pairwise_insertPoint hR hp hbefore h)
      rcases List.mem_cons.mp ((insertPoint_perm p before).mem_iff.mp hq) with rfl | hq
      · exact hp
      · exact hbefore q hq

end Order

end Curve

end StorageLoad
