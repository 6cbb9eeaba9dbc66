import Mathlib.Order.Bounds.Basic
import StorageLoad.Proofs.Breakpoints
import StorageLoad.Proofs.Exact
import StorageLoad.Proofs.Table

/-!
The course of a curve through breakpoints, reckoned in exact rationals.  It is one curve whatever
order the breakpoints come in, and at a fraction of the run that several of them share it takes
the largest of their weights and arrives at the smallest (`ofPoints_exact`).
-/

namespace StorageLoad

namespace Curve

section Given

/-- The fractions of the run at which there are breakpoints. -/
def fractions (points : List (Breakpoint ℚ)) : Set ℚ :=
  {f | ∃ p ∈ points, p.fraction = f}

/-- The weights given at a fraction of the run. -/
def weightsAt (points : List (Breakpoint ℚ)) (f : ℚ) : Set ℚ :=
  {w | ⟨f, w⟩ ∈ points}

/-- The weight goes straight from breakpoint to breakpoint, and stays before the first one and
after the last one.  Where the fractions of several agree, it arrives at the smallest of their
weights and leaves from the largest. -/
structure IsCourse (points : List (Breakpoint ℚ)) (weight : ℚ → ℚ) : Prop where
  bounded : ∀ x, ∃ p ∈ points, ∃ q ∈ points, p.weight ≤ weight x ∧ weight x ≤ q.weight
  breakpoint : ∀ x ∈ fractions points, IsGreatest (weightsAt points x) (weight x)
  before : ∀ f, IsLeast (fractions points) f → ∀ x < f, IsLeast (weightsAt points f) (weight x)
  after : ∀ f, IsGreatest (fractions points) f →
    ∀ x > f, IsGreatest (weightsAt points f) (weight x)
  between : ∀ f ∈ fractions points, ∀ g ∈ fractions points,
    (∀ h ∈ fractions points, h ≤ f ∨ g ≤ h) →
    ∀ x, f < x → x < g → ∃ v w, IsGreatest (weightsAt points f) v ∧
      IsLeast (weightsAt points g) w ∧ weight x = v + (w - v) * (x - f) / (g - f)

end Given

section Order

/-- The order of pairs: by fraction, then by weight. -/
def Below (p q : Breakpoint ℚ) : Prop :=
  p.fraction < q.fraction ∨ p.fraction = q.fraction ∧ p.weight ≤ q.weight

variable {p q r : Breakpoint ℚ} {points others : List (Breakpoint ℚ)}

theorem Below.fraction_le (h : Below p q) : p.fraction ≤ q.fraction := by
  rcases h with hlt | ⟨heq, -⟩
  · exact hlt.le
  · exact heq.le

theorem Below.weight_le (h : Below p q) (hfraction : p.fraction = q.fraction) :
    p.weight ≤ q.weight := by
  rcases h with hlt | ⟨-, hle⟩
  · exact absurd hfraction hlt.ne
  · exact hle

theorem Below.refl (p : Breakpoint ℚ) : Below p p :=
  .inr ⟨rfl, le_refl _⟩

theorem Below.trans (hpq : Below p q) (hqr : Below q r) : Below p r := by
  rcases hpq with hlt | ⟨heq, hle⟩
  · exact .inl (hlt.trans_le hqr.fraction_le)
  · rcases hqr with hlt' | ⟨heq', hle'⟩
    · exact .inl (heq ▸ hlt')
    · exact .inr ⟨heq.trans heq', hle.trans hle'⟩

theorem Below.antisymm (hpq : Below p q) (hqp : Below q p) : p = q := by
  have hfraction := le_antisymm hpq.fraction_le hqp.fraction_le
  have hweight := le_antisymm (hpq.weight_le hfraction) (hqp.weight_le hfraction.symm)
  cases p
  cases q
  simp_all

theorem agrees_below : Agrees (fun _ => True) Below where
  precedes := by
    intro p q _ _ h
    rw [precedes] at h
    split at h
    · rename_i hsame
      exact .inr ⟨eq_of_beq hsame, (of_decide_eq_true h).le⟩
    · exact .inl (of_decide_eq_true h)
  not_precedes := by
    intro p q _ _ h
    rw [precedes] at h
    split at h
    · rename_i hsame
      exact .inr ⟨(eq_of_beq hsame).symm, not_lt.mp fun hlt => h (decide_eq_true hlt)⟩
    · rename_i hother
      refine .inl (lt_of_le_of_ne (not_lt.mp fun hlt => h (decide_eq_true hlt)) fun heq => ?_)
      exact hother (beq_of_eq heq.symm)
  trans := Below.trans

theorem pairwise_insertAll_below (points : List (Breakpoint ℚ)) :
    (points.foldl (fun sorted p => insertPoint p sorted) []).Pairwise Below :=
  pairwise_insertAll agrees_below (fun _ _ => trivial) nofun .nil

theorem insertAll_eq (h : others.Perm points) :
    others.foldl (fun sorted p => insertPoint p sorted) [] =
      points.foldl (fun sorted p => insertPoint p sorted) [] := by
  have hperm := ((insertAll_perm [] others).trans h).trans (insertAll_perm [] points).symm
  exact hperm.eq_of_pairwise (fun _ _ _ _ => Below.antisymm) (pairwise_insertAll_below others)
    (pairwise_insertAll_below points)

end Order

section Sides

variable {𝕜 : Type} [Add 𝕜] [Sub 𝕜] [Mul 𝕜] [Div 𝕜] [LT 𝕜] [BEq 𝕜] [OfScientific 𝕜]
  [DecidableLT 𝕜]

/-- The breakpoints on the two sides of a fraction of the run. -/
def sides (points : List (Breakpoint 𝕜)) (x : 𝕜) :
    Option (Breakpoint 𝕜) × Option (Breakpoint 𝕜) :=
  ((points.takeWhile fun p => ¬ x < p.fraction).getLast?,
    (points.dropWhile fun p => ¬ x < p.fraction).head?)

/-- The weight at a fraction of the run that has breakpoints on its sides. -/
def weightBetween (x : 𝕜) : Option (Breakpoint 𝕜) × Option (Breakpoint 𝕜) → 𝕜
  | (some p, some q) => line p q x
  | (some p, none) => p.weight
  | (none, some q) => q.weight
  | (none, none) => 0.0

theorem interpolate_eq (points : List (Breakpoint 𝕜)) (x : 𝕜) :
    interpolate points x = weightBetween x (sides points x) := by
  rw [interpolate, sides]
  cases (points.takeWhile fun p => ¬ x < p.fraction).getLast? with
  | none =>
      cases (points.dropWhile fun p => ¬ x < p.fraction).head? with
      | none => rfl
      | some q => rfl
  | some p =>
      cases (points.dropWhile fun p => ¬ x < p.fraction).head? with
      | none => rfl
      | some q => rfl

end Sides

section Place

variable {p q : Breakpoint ℚ} {points sorted before after : List (Breakpoint ℚ)} {x : ℚ}

/-- The last breakpoint, in order, that does not lie after a fraction of the run. -/
structure IsLeft (points : List (Breakpoint ℚ)) (x : ℚ) (p : Breakpoint ℚ) : Prop where
  mem : p ∈ points
  le : p.fraction ≤ x
  last : ∀ a ∈ points, a.fraction ≤ x → Below a p

/-- The first breakpoint, in order, that lies after a fraction of the run. -/
structure IsRight (points : List (Breakpoint ℚ)) (x : ℚ) (q : Breakpoint ℚ) : Prop where
  mem : q ∈ points
  lt : x < q.fraction
  first : ∀ a ∈ points, x < a.fraction → Below q a

theorem IsLeft.isGreatest (h : IsLeft points x p) :
    IsGreatest (weightsAt points p.fraction) p.weight :=
  ⟨h.mem, fun _ hw => (h.last _ hw h.le).weight_le rfl⟩

theorem IsRight.isLeast (h : IsRight points x q) :
    IsLeast (weightsAt points q.fraction) q.weight :=
  ⟨h.mem, fun _ hw => (h.first _ hw h.lt).weight_le rfl⟩

/-- The breakpoints on the sides of a fraction of the run: none on a side only if all are on the
other. -/
inductive Place (points : List (Breakpoint ℚ)) (x : ℚ) :
    Option (Breakpoint ℚ) × Option (Breakpoint ℚ) → Prop
  | before {q : Breakpoint ℚ} : (∀ a ∈ points, x < a.fraction) → IsRight points x q →
      Place points x (none, some q)
  | between {p q : Breakpoint ℚ} : IsLeft points x p → IsRight points x q →
      Place points x (some p, some q)
  | after {p : Breakpoint ℚ} : (∀ a ∈ points, a.fraction ≤ x) → IsLeft points x p →
      Place points x (some p, none)

/-- Breakpoints in order fall in two parts at a fraction of the run. -/
theorem exists_parts (h : sorted.Pairwise Below) (x : ℚ) :
    ∃ before after, sorted = before ++ after ∧ sides sorted x = (before.getLast?, after.head?) ∧
      (∀ p ∈ before, p.fraction ≤ x) ∧ ∀ q ∈ after, x < q.fraction := by
  have hearlier : sorted.Pairwise fun p q => decide (¬ x < q.fraction) →
      decide (¬ x < p.fraction) := by
    refine h.imp fun hbelow hq => ?_
    simp only [decide_eq_true_eq, not_lt] at hq ⊢
    exact hbelow.fraction_le.trans hq
  refine ⟨_, _, List.takeWhile_append_dropWhile.symm, rfl, fun p hp => ?_, fun q hq => ?_⟩
  · rw [Table.takeWhile_eq_filter_of_pairwise hearlier] at hp
    simpa using List.of_mem_filter hp
  · rw [Table.dropWhile_eq_filter_of_pairwise hearlier] at hq
    simpa using List.of_mem_filter hq

theorem isLeft_of_getLast? (hsorted : (before ++ after).Pairwise Below)
    (hafter : ∀ q ∈ after, x < q.fraction)
    (hp : before.getLast? = some p) (hle : p.fraction ≤ x) : IsLeft (before ++ after) x p where
  mem := List.mem_append_left _ (List.mem_of_getLast? hp)
  le := hle
  last := by
    intro a ha hax
    obtain ⟨front, rfl⟩ := List.getLast?_eq_some_iff.mp hp
    rcases List.mem_append.mp ha with ha | ha
    · rcases List.mem_append.mp ha with ha | ha
      · exact (List.pairwise_append.mp (List.pairwise_append.mp hsorted).1).2.2 a ha p
          List.mem_cons_self
      · obtain rfl := List.mem_singleton.mp ha
        exact .refl a
    · exact absurd hax (hafter a ha).not_ge

theorem isRight_of_head? (hsorted : (before ++ after).Pairwise Below)
    (hbefore : ∀ p ∈ before, p.fraction ≤ x) (hq : after.head? = some q) (hlt : x < q.fraction) :
    IsRight (before ++ after) x q where
  mem := List.mem_append_right _ (List.mem_of_head? hq)
  lt := hlt
  first := by
    intro a ha hxa
    obtain ⟨rest, rfl⟩ := List.head?_eq_some_iff.mp hq
    rcases List.mem_append.mp ha with ha | ha
    · exact absurd hxa (hbefore a ha).not_gt
    · rcases List.mem_cons.mp ha with rfl | ha
      · exact .refl a
      · exact List.rel_of_pairwise_cons (List.pairwise_append.mp hsorted).2.1 ha

theorem place_of_pairwise (hsorted : sorted.Pairwise Below) (hne : sorted ≠ []) (x : ℚ) :
    Place sorted x (sides sorted x) := by
  obtain ⟨before, after, rfl, hsides, hbefore, hafter⟩ := exists_parts hsorted x
  have hleft : ∀ p, before.getLast? = some p → IsLeft (before ++ after) x p := fun p hp =>
    isLeft_of_getLast? hsorted hafter hp (hbefore p (List.mem_of_getLast? hp))
  have hright : ∀ q, after.head? = some q → IsRight (before ++ after) x q := fun q hq =>
    isRight_of_head? hsorted hbefore hq (hafter q (List.mem_of_head? hq))
  rw [hsides]
  cases hp : before.getLast? with
  | none =>
      obtain rfl := List.getLast?_eq_none_iff.mp hp
      cases hq : after.head? with
      | none => exact absurd (List.head?_eq_none_iff.mp hq) hne
      | some q => exact .before hafter (hright q hq)
  | some p =>
      cases hq : after.head? with
      | none =>
          obtain rfl := List.head?_eq_none_iff.mp hq
          exact .after (by rwa [List.append_nil]) (hleft p hp)
      | some q => exact .between (hleft p hp) (hright q hq)

theorem Place.perm {found : Option (Breakpoint ℚ) × Option (Breakpoint ℚ)}
    (h : Place sorted x found) (hperm : sorted.Perm points) : Place points x found := by
  have hleft : ∀ {p}, IsLeft sorted x p → IsLeft points x p := fun hp =>
    ⟨hperm.mem_iff.mp hp.mem, hp.le, fun a ha => hp.last a (hperm.mem_iff.mpr ha)⟩
  have hright : ∀ {q}, IsRight sorted x q → IsRight points x q := fun hq =>
    ⟨hperm.mem_iff.mp hq.mem, hq.lt, fun a ha => hq.first a (hperm.mem_iff.mpr ha)⟩
  cases h with
  | before hlt hq => exact .before (fun a ha => hlt a (hperm.mem_iff.mpr ha)) (hright hq)
  | between hp hq => exact .between (hleft hp) (hright hq)
  | after hle hp => exact .after (fun a ha => hle a (hperm.mem_iff.mpr ha)) (hleft hp)

end Place

section Line

variable {p q : Breakpoint ℚ} {x : ℚ}

theorem line_eq (h : p.fraction < q.fraction) (x : ℚ) : line p q x =
    p.weight + (q.weight - p.weight) * (x - p.fraction) / (q.fraction - p.fraction) := by
  have hapart : ¬ (q.fraction == p.fraction) = true := fun heq => h.ne' (eq_of_beq heq)
  rw [line, if_neg hapart]

theorem line_left (h : p.fraction < q.fraction) : line p q p.fraction = p.weight := by
  rw [line_eq h, sub_self, mul_zero, zero_div, add_zero]

theorem line_bounded (hp : p.fraction ≤ x) (hq : x < q.fraction) :
    (p.weight ≤ q.weight → p.weight ≤ line p q x ∧ line p q x ≤ q.weight) ∧
      (q.weight ≤ p.weight → q.weight ≤ line p q x ∧ line p q x ≤ p.weight) := by
  have hwhole : 0 < q.fraction - p.fraction := sub_pos.mpr (hp.trans_lt hq)
  have hnonneg : 0 ≤ (x - p.fraction) / (q.fraction - p.fraction) :=
    div_nonneg (sub_nonneg.mpr hp) hwhole.le
  have hle : (x - p.fraction) / (q.fraction - p.fraction) ≤ 1 := by
    rw [div_le_one hwhole]
    linarith
  rw [line_eq (hp.trans_lt hq), mul_div_assoc]
  constructor
  · intro hup
    constructor
    · nlinarith
    · nlinarith
  · intro hdown
    constructor
    · nlinarith
    · nlinarith

end Line

section Course

variable {p q a b : Breakpoint ℚ} {points sorted others : List (Breakpoint ℚ)} {x : ℚ}
  {found : Option (Breakpoint ℚ) × Option (Breakpoint ℚ)}

theorem Place.bounded (h : Place points x found) :
    ∃ p ∈ points, ∃ q ∈ points, p.weight ≤ weightBetween x found ∧
      weightBetween x found ≤ q.weight := by
  cases h with
  | @before q _ hq => exact ⟨q, hq.mem, q, hq.mem, le_refl _, le_refl _⟩
  | @after p _ hp => exact ⟨p, hp.mem, p, hp.mem, le_refl _, le_refl _⟩
  | @between p q hp hq =>
      obtain ⟨hup, hdown⟩ := line_bounded hp.le hq.lt
      rcases le_total p.weight q.weight with hle | hle
      · exact ⟨p, hp.mem, q, hq.mem, hup hle⟩
      · exact ⟨q, hq.mem, p, hp.mem, hdown hle⟩

theorem Place.isGreatest (h : Place points x found) (hx : x ∈ fractions points) :
    IsGreatest (weightsAt points x) (weightBetween x found) := by
  obtain ⟨a, ha, hax⟩ := hx
  have hsame : ∀ {p}, IsLeft points x p → p.fraction = x := fun hp =>
    le_antisymm hp.le (hax ▸ (hp.last a ha hax.le).fraction_le)
  cases h with
  | before hlt _ => exact absurd hax (hlt a ha).ne'
  | after _ hp =>
      obtain rfl := hsame hp
      exact hp.isGreatest
  | between hp hq =>
      obtain rfl := hsame hp
      rw [weightBetween, line_left hq.lt]
      exact hp.isGreatest

theorem Place.isLeast_before (h : Place points x found)
    (ha : IsLeast (fractions points) a.fraction) (hmem : a ∈ points) (hx : x < a.fraction) :
    IsLeast (weightsAt points a.fraction) (weightBetween x found) := by
  have hlt : ∀ b ∈ points, x < b.fraction := fun b hb => hx.trans_le (ha.2 ⟨b, hb, rfl⟩)
  cases h with
  | @before q _ hq =>
      have hfirst : a.fraction = q.fraction :=
        le_antisymm (ha.2 ⟨q, hq.mem, rfl⟩) (hq.first a hmem hx).fraction_le
      rw [hfirst]
      exact hq.isLeast
  | after _ hp => exact absurd hp.le (hlt _ hp.mem).not_ge
  | between hp _ => exact absurd hp.le (hlt _ hp.mem).not_ge

theorem Place.isGreatest_after (h : Place points x found)
    (ha : IsGreatest (fractions points) a.fraction) (hmem : a ∈ points) (hx : a.fraction < x) :
    IsGreatest (weightsAt points a.fraction) (weightBetween x found) := by
  have hlt : ∀ b ∈ points, b.fraction < x := fun b hb => (ha.2 ⟨b, hb, rfl⟩).trans_lt hx
  cases h with
  | before _ hq => exact absurd hq.lt (hlt _ hq.mem).not_gt
  | between _ hq => exact absurd hq.lt (hlt _ hq.mem).not_gt
  | @after p _ hp =>
      have hlast : a.fraction = p.fraction :=
        le_antisymm (hp.last a hmem hx.le).fraction_le (ha.2 ⟨p, hp.mem, rfl⟩)
      rw [hlast]
      exact hp.isGreatest

theorem Place.straight (h : Place points x found) (ha : a ∈ points) (hb : b ∈ points)
    (hnext : ∀ p ∈ points, p.fraction ≤ a.fraction ∨ b.fraction ≤ p.fraction)
    (hax : a.fraction < x) (hxb : x < b.fraction) :
    ∃ v w, IsGreatest (weightsAt points a.fraction) v ∧ IsLeast (weightsAt points b.fraction) w ∧
      weightBetween x found = v + (w - v) * (x - a.fraction) / (b.fraction - a.fraction) := by
  cases h with
  | before hlt _ => exact absurd (hlt a ha) hax.not_gt
  | after hle _ => exact absurd (hle b hb) hxb.not_ge
  | @between p q hp hq =>
      have hleft : a.fraction = p.fraction := by
        refine le_antisymm (hp.last a ha hax.le).fraction_le
          ((hnext p hp.mem).resolve_right fun hbp => ?_)
        exact hp.le.not_gt (hxb.trans_le hbp)
      have hright : b.fraction = q.fraction := by
        refine le_antisymm ((hnext q hq.mem).resolve_left fun hqa => ?_)
          (hq.first b hb hxb).fraction_le
        exact hq.lt.not_gt (hqa.trans_lt hax)
      rw [hleft, hright]
      exact ⟨p.weight, q.weight, hp.isGreatest, hq.isLeast, line_eq (hp.le.trans_lt hq.lt) x⟩

theorem isCourse_interpolate (h : ∀ x, Place points x (sides sorted x)) :
    IsCourse points (interpolate sorted) := by
  refine ⟨fun x => ?bounded, fun x hx => ?breakpoint, ?before, ?after, ?between⟩
  case bounded =>
    rw [interpolate_eq]
    exact (h x).bounded
  case breakpoint =>
    rw [interpolate_eq]
    exact (h x).isGreatest hx
  case before =>
    intro f hf x hx
    obtain ⟨a, ha, rfl⟩ := hf.1
    rw [interpolate_eq]
    exact (h x).isLeast_before hf ha hx
  case after =>
    intro f hf x hx
    obtain ⟨a, ha, rfl⟩ := hf.1
    rw [interpolate_eq]
    exact (h x).isGreatest_after hf ha hx
  case between =>
    rintro - ⟨a, ha, rfl⟩ - ⟨b, hb, rfl⟩ hnext x hax hxb
    rw [interpolate_eq]
    exact (h x).straight ha hb (fun p hp => hnext p.fraction ⟨p, hp, rfl⟩) hax hxb

theorem checkPoint_eq (h : (0 ≤ p.fraction ∧ p.fraction ≤ 1) ∧ 0 ≤ p.weight) :
    checkPoint p = .ok p := by
  obtain ⟨hinside, hweight⟩ := h
  rw [checkPoint, Exact.zero_eq, Exact.one_eq, if_neg (not_not.mpr hinside),
    if_neg hweight.not_gt]

theorem ofPoints_eq (hne : points ≠ [])
    (hpoints : ∀ p ∈ points, (0 ≤ p.fraction ∧ p.fraction ≤ 1) ∧ 0 ≤ p.weight) :
    ofPoints points = .ok (.linear (points.foldl (fun sorted p => insertPoint p sorted) [])) := by
  have hchecked : points.mapM checkPoint = .ok (points.map id) :=
    mapM_eq_ok fun p hp => checkPoint_eq (hpoints p hp)
  rw [List.map_id] at hchecked
  rw [ofPoints, hchecked]
  exact if_neg (mt List.isEmpty_iff.mp hne)

/-- Breakpoints within the run and without negative weights give one curve in any order, which
takes its course through them.  Where the weight is found on a line, the ends of the line are
apart. -/
theorem ofPoints_exact (hne : points ≠ [])
    (hpoints : ∀ p ∈ points, (0 ≤ p.fraction ∧ p.fraction ≤ 1) ∧ 0 ≤ p.weight) :
    ∃ sorted, (∀ others, others.Perm points → ofPoints others = .ok (.linear sorted)) ∧
      IsCourse points (linear sorted).weight ∧ (∀ x, 0 ≤ (linear sorted).weight x) ∧
      ∀ x, (linear sorted).weight x = weightBetween x (sides sorted x) ∧
        ∀ p q, sides sorted x = (some p, some q) →
          ¬ (q.fraction == p.fraction) = true ∧ q.fraction - p.fraction ≠ 0 := by
  have hperm := insertAll_perm [] points
  have hplace :
      ∀ x, Place points x (sides (points.foldl (fun sorted p => insertPoint p sorted) []) x) := by
    intro x
    refine (place_of_pairwise (pairwise_insertAll_below points) (fun hnil => hne ?_) x).perm hperm
    rw [hnil] at hperm
    exact hperm.nil_eq.symm
  have hcourse := isCourse_interpolate hplace
  refine ⟨_, fun others hothers => ?order, hcourse, fun x => ?nonneg, fun x =>
    ⟨interpolate_eq _ x, fun p q hsides => ?apart⟩⟩
  case order =>
    rw [ofPoints_eq (fun hnil => hne ?_) fun p hp => hpoints p (hothers.mem_iff.mp hp),
      insertAll_eq hothers]
    rw [hnil] at hothers
    exact hothers.nil_eq.symm
  case nonneg =>
    obtain ⟨p, hp, -, -, hle, -⟩ := hcourse.bounded x
    exact (hpoints p hp).2.trans hle
  case apart =>
    have hfound := hplace x
    rw [hsides] at hfound
    cases hfound with
    | between hp hq =>
        have hlt := hp.le.trans_lt hq.lt
        exact ⟨fun heq => hlt.ne' (eq_of_beq heq), (sub_pos.mpr hlt).ne'⟩

/-- Breakpoints out of order, some at the same fraction of the run. -/
def scattered : List (Breakpoint ℚ) :=
  [⟨1, 0⟩, ⟨1 / 2, 2⟩, ⟨1 / 4, 5⟩, ⟨1 / 2, 4⟩, ⟨1 / 4, 3⟩]

theorem ofPoints_exact_scattered : scattered ≠ [] ∧
    (∀ p ∈ scattered, (0 ≤ p.fraction ∧ p.fraction ≤ 1) ∧ 0 ≤ p.weight) ∧
    ∃ sorted, ofPoints scattered = .ok (.linear sorted) ∧
      ofPoints scattered.reverse = .ok (.linear sorted) ∧
      IsCourse scattered (linear sorted).weight ∧ (∀ x, 0 ≤ (linear sorted).weight x) ∧
      sides sorted (1 / 3) = (some ⟨1 / 4, 5⟩, some ⟨1 / 2, 2⟩) := by
  have hpoints : ∀ p ∈ scattered, (0 ≤ p.fraction ∧ p.fraction ≤ 1) ∧
      0 ≤ p.weight := by decide +kernel
  obtain ⟨sorted, horder, hcourse, hnonneg, -⟩ := ofPoints_exact (by decide) hpoints
  have hsorted := horder scattered (.refl _)
  refine ⟨by decide, hpoints, sorted, hsorted, horder _ scattered.reverse_perm, hcourse,
    hnonneg, ?_⟩
  rw [ofPoints_eq (by decide) hpoints] at hsorted
  obtain rfl := Curve.linear.inj (Except.ok.inj hsorted)
  decide +kernel

end Course

end Curve

end StorageLoad
