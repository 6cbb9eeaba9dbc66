import StorageLoad.Proofs.Exact
import StorageLoad.Proofs.Selector
import StorageLoad.Worker

/-!
One selection, reckoned in exact rationals.  Of the operations that can be chosen it takes the
first whose sum of weights exceeds the drawn part of the total, so that each is chosen for the
numbers of an interval as long as its share of the weights (`step_exact`).
-/

namespace StorageLoad.Selector

section Moment

variable {elapsed duration : Quantity ℚ}

/-- The fraction of a run that is over. -/
def moment (elapsed duration : Quantity ℚ) : ℚ :=
  if duration.value = 0 then 1 else min 1 (elapsed.value / duration.value)

theorem divide_eq (elapsed duration : Quantity ℚ) :
    divide elapsed duration = .ok (elapsed.value / duration.value) := by
  cases elapsed with
  | whole m =>
      cases duration with
      | whole n => rfl
      | real y => rfl
  | real x =>
      cases duration with
      | whole n => rfl
      | real y => rfl

theorem fraction_of_negative (h : elapsed.value < 0 ∨ duration.value < 0) :
    fraction elapsed duration = .error (.negativeTime elapsed.text duration.text) := by
  have hsigns : (elapsed.isNegative || duration.isNegative) = true := by
    rw [Bool.or_eq_true, Quantity.isNegative_iff, Quantity.isNegative_iff]
    exact h
  rw [fraction, if_pos hsigns]
  rfl

theorem fraction_of_nonneg (helapsed : 0 ≤ elapsed.value) (hduration : 0 ≤ duration.value) :
    fraction elapsed duration = .ok (moment elapsed duration) := by
  have hsigns : ¬ (elapsed.isNegative || duration.isNegative) = true := by
    rw [Bool.or_eq_true, Quantity.isNegative_iff, Quantity.isNegative_iff]
    exact not_or.mpr ⟨helapsed.not_gt, hduration.not_gt⟩
  rw [fraction, if_neg hsigns, moment]
  by_cases hzero : duration.value = 0
  · rw [if_pos (Quantity.isZero_iff.mpr hzero), if_pos hzero, Exact.one_eq]
    rfl
  · rw [if_neg (mt Quantity.isZero_iff.mp hzero), if_neg hzero, divide_eq, lift_ok, ok_bind,
      Exact.one_eq, min_comm, min_def_lt]
    rfl

end Moment

section Row

/-- The sum of the weights of operations. -/
def totalWeight (f : ℚ) (row : List (Spec ℚ)) : ℚ :=
  (row.map fun s => s.weight f).sum

/-- Whether an operation is below its limit and has weight. -/
def isOpen (t : Tally) (f : ℚ) (s : Spec ℚ) : Bool :=
  !isExhausted t s && decide (0 < s.weight f)

/-- The operations that can be chosen at a fraction of a run, in the order of the
configuration. -/
def choosable (specs : List (Spec ℚ)) (t : Tally) (f : ℚ) : List (Spec ℚ) :=
  specs.filter (isOpen t f)

/-- Operations with their weights. -/
def weighed (f : ℚ) (row : List (Spec ℚ)) : List (Spec ℚ × ℚ) :=
  row.map fun s => (s, s.weight f)

variable {specs row front rest : List (Spec ℚ)} {t : Tally} {before f u x : ℚ} {s : Spec ℚ}

theorem isOpen_iff : isOpen t f s ↔
    (∀ limit, s.maxCount = some limit → (t.count s.kind : Int) < limit) ∧ 0 < s.weight f := by
  rw [isOpen, Bool.and_eq_true, Bool.not_eq_true', isExhausted_eq_false_iff, decide_eq_true_iff]

theorem eligible_eq (specs : List (Spec ℚ)) (t : Tally) (f : ℚ) :
    eligible specs t f = weighed f (choosable specs t f) := by
  rw [choosable]
  induction specs with
  | nil => rfl
  | cons s specs ih =>
      rw [eligible, Exact.zero_eq] at ih ⊢
      by_cases hopen : isExhausted t s
      · rw [List.filter_cons_of_neg (by simp [hopen]),
          List.filter_cons_of_neg (by simp [isOpen, hopen]), ih]
      · rw [List.filter_cons_of_pos (by simp [hopen]), List.filterMap_cons, ih]
        by_cases hweight : 0 < s.weight f
        · rw [if_pos hweight, List.filter_cons_of_pos (by simp [isOpen, hopen, hweight])]
          rfl
        · rw [if_neg hweight, List.filter_cons_of_neg (by simp [isOpen, hweight])]

theorem totalWeight_cons : totalWeight f (s :: rest) = s.weight f + totalWeight f rest :=
  List.sum_cons

theorem totalWeight_append :
    totalWeight f (front ++ rest) = totalWeight f front + totalWeight f rest := by
  rw [totalWeight, List.map_append, List.sum_append]
  rfl

theorem totalWeight_nonneg (h : ∀ s ∈ row, 0 < s.weight f) : 0 ≤ totalWeight f row :=
  List.sum_nonneg (List.forall_mem_map.mpr fun s hs => (h s hs).le)

theorem totalWeight_pos (h : ∀ s ∈ row, 0 < s.weight f) (hne : row ≠ []) :
    0 < totalWeight f row := by
  cases row with
  | nil => exact absurd rfl hne
  | cons s row =>
      obtain ⟨hs, hrow⟩ := List.forall_mem_cons.mp h
      rw [totalWeight_cons]
      exact add_pos_of_pos_of_nonneg hs (totalWeight_nonneg hrow)

theorem accumulate_append (before f : ℚ) (front rest : List (Spec ℚ)) :
    accumulate before (weighed f (front ++ rest)) =
      accumulate before (weighed f front) ++
        accumulate (before + totalWeight f front) (weighed f rest) := by
  induction front generalizing before with
  | nil => simp [accumulate, weighed, totalWeight]
  | cons s front ih =>
      rw [totalWeight_cons, ← add_assoc]
      exact congrArg _ (ih _)

theorem getLast?_accumulate (f : ℚ) (row : List (Spec ℚ)) (s : Spec ℚ) :
    (accumulate 0 (weighed f (row ++ [s]))).getLast? = some (s, totalWeight f (row ++ [s])) := by
  rw [accumulate_append, List.getLast?_append, totalWeight_append, totalWeight_cons]
  simp [accumulate, weighed, totalWeight]

theorem le_of_mem_accumulate (h : ∀ s ∈ row, 0 < s.weight f) {e : Spec ℚ × ℚ}
    (he : e ∈ accumulate before (weighed f row)) : e.2 ≤ before + totalWeight f row := by
  induction row generalizing before with
  | nil => cases he
  | cons s row ih =>
      obtain ⟨-, hrow⟩ := List.forall_mem_cons.mp h
      rw [totalWeight_cons, ← add_assoc]
      rcases List.mem_cons.mp he with rfl | he
      · exact le_add_of_nonneg_right (totalWeight_nonneg hrow)
      · exact ih hrow he

/-- An operation is the first in a row with which the sum of the weights exceeds a number. -/
def IsFirstBeyond (f x : ℚ) (row : List (Spec ℚ)) (s : Spec ℚ) : Prop :=
  ∃ front rest, row = front ++ s :: rest ∧
    (∀ earlier, earlier <+: front → totalWeight f earlier ≤ x) ∧
    x < totalWeight f (front ++ [s])

theorem IsFirstBeyond.mem (h : IsFirstBeyond f x row s) : s ∈ row := by
  obtain ⟨front, rest, rfl, -⟩ := h
  exact List.mem_append_right _ List.mem_cons_self

theorem isFirstBeyond_iff (hpos : ∀ s ∈ row, 0 < s.weight f) : IsFirstBeyond f x row s ↔
    ∃ front rest, row = front ++ s :: rest ∧ totalWeight f front ≤ x ∧
      x < totalWeight f front + s.weight f := by
  have hlast : ∀ front, totalWeight f (front ++ [s]) = totalWeight f front + s.weight f := by
    intro front
    rw [totalWeight_append]
    simp [totalWeight]
  constructor
  · rintro ⟨front, rest, hrow, hearlier, hx⟩
    exact ⟨front, rest, hrow, hearlier front (List.prefix_refl _), hlast front ▸ hx⟩
  · rintro ⟨front, rest, rfl, hfront, hx⟩
    refine ⟨front, rest, rfl, ?_, (hlast front).symm ▸ hx⟩
    rintro earlier ⟨between, rfl⟩
    have hbetween : 0 ≤ totalWeight f between := by
      refine totalWeight_nonneg fun d hd => hpos d ?_
      simp [hd]
    rw [totalWeight_append] at hfront
    linarith

theorem exists_isFirstBeyond (hpos : ∀ s ∈ row, 0 < s.weight f) (hx : 0 ≤ x)
    (hlt : x < totalWeight f row) :
    ∃ s, IsFirstBeyond f x row s := by
  suffices h : ∃ s front rest, row = front ++ s :: rest ∧ totalWeight f front ≤ x ∧
      x < totalWeight f front + s.weight f by
    obtain ⟨s, h⟩ := h
    exact ⟨s, (isFirstBeyond_iff hpos).mpr h⟩
  clear hpos
  induction row generalizing x with
  | nil => exact absurd hlt hx.not_gt
  | cons s row ih =>
      by_cases hfirst : x < s.weight f
      · exact ⟨s, [], row, rfl, hx, by simpa [totalWeight] using hfirst⟩
      · rw [totalWeight_cons] at hlt
        obtain ⟨d, front, rest, rfl, hle, hlt⟩ :=
          ih (x := x - s.weight f) (by linarith) (by linarith)
        refine ⟨d, s :: front, rest, rfl, ?_, ?_⟩
        · rw [totalWeight_cons]
          linarith
        · rw [totalWeight_cons]
          linarith

theorem find?_of_isFirstBeyond (hpos : ∀ s ∈ row, 0 < s.weight f) (h : IsFirstBeyond f x row s) :
    ∃ sum, (accumulate 0 (weighed f row)).find? (fun e => x < e.2) = some (s, sum) := by
  obtain ⟨front, rest, rfl, hfront, hx⟩ := (isFirstBeyond_iff hpos).mp h
  have hskip : (accumulate 0 (weighed f front)).find? (fun e => x < e.2) = none := by
    rw [List.find?_eq_none]
    intro e he
    have hle := le_of_mem_accumulate (fun d hd => hpos d (List.mem_append_left _ hd)) he
    simp only [decide_eq_true_eq, not_lt]
    linarith
  refine ⟨totalWeight f front + s.weight f, ?_⟩
  rw [accumulate_append, List.find?_append, hskip, Option.none_or, zero_add]
  exact List.find?_cons_of_pos (decide_eq_true hx)

theorem pick_eq (hne : row ≠ []) (u : ℚ) :
    ∃ last, pick (weighed f row) u =
      some ((((accumulate 0 (weighed f row)).find? fun e =>
        u * totalWeight f row < e.2).map (·.1)).getD last) := by
  obtain ⟨front, last, rfl⟩ := List.eq_nil_or_concat'  row |>.resolve_left hne
  refine ⟨last, ?_⟩
  rw [pick, Exact.zero_eq, getLast?_accumulate]
  rfl

theorem pick_eq_some_iff (hpos : ∀ s ∈ row, 0 < s.weight f) (hne : row ≠ []) (hu : 0 ≤ u)
    (hu' : u < 1) :
    pick (weighed f row) u = some s ↔ IsFirstBeyond f (u * totalWeight f row) row s := by
  have htotal := totalWeight_pos hpos hne
  have hbelow : u * totalWeight f row < totalWeight f row := by nlinarith
  obtain ⟨d, hd⟩ := exists_isFirstBeyond hpos (mul_nonneg hu htotal.le) hbelow
  obtain ⟨last, hpick⟩ := pick_eq (f := f) hne u
  have hfound : ∀ {d}, IsFirstBeyond f (u * totalWeight f row) row d →
      pick (weighed f row) u = some d := by
    intro d hd
    obtain ⟨sum, hfind⟩ := find?_of_isFirstBeyond hpos hd
    rw [hpick, hfind]
    rfl
  constructor
  · intro hs
    obtain rfl := Option.some.inj ((hfound hd).symm.trans hs)
    exact hd
  · exact hfound

theorem totalWeight_le (hpos : ∀ d ∈ front ++ s :: rest, 0 < d.weight f) :
    totalWeight f front + s.weight f ≤ totalWeight f (front ++ s :: rest) := by
  have hrest : 0 ≤ totalWeight f rest := by
    refine totalWeight_nonneg fun d hd => hpos d ?_
    simp [hd]
  rw [totalWeight_append, totalWeight_cons]
  linarith

/-- An operation of a row has an interval of numbers to itself, as long as its share of the
weights. -/
theorem exists_interval (hpos : ∀ s ∈ row, 0 < s.weight f) (hnodup : row.Nodup) (hs : s ∈ row) :
    ∃ a, 0 ≤ a ∧ a + s.weight f / totalWeight f row ≤ 1 ∧ ∀ u,
      IsFirstBeyond f (u * totalWeight f row) row s ↔ a ≤ u ∧
      u < a + s.weight f / totalWeight f row := by
  have htotal := totalWeight_pos hpos (List.ne_nil_of_mem hs)
  obtain ⟨front, rest, hrow⟩ := List.append_of_mem hs
  have honce : s ∉ front ∧ s ∉ rest := by
    rw [hrow, List.nodup_middle, List.nodup_cons, List.mem_append, not_or] at hnodup
    exact hnodup.1
  have hplace : ∀ x, IsFirstBeyond f x row s ↔
      totalWeight f front ≤ x ∧ x < totalWeight f front + s.weight f := by
    intro x
    rw [isFirstBeyond_iff hpos]
    constructor
    · rintro ⟨front', rest', hrow', hle, hlt⟩
      -- The operation stands in the row once, so that both splits are the same.
      obtain ⟨rfl, -⟩ :=
        (List.append_cons_inj_of_notMem honce.1 honce.2).mp (hrow.symm.trans hrow')
      exact ⟨hle, hlt⟩
    · rintro ⟨hle, hlt⟩
      exact ⟨front, rest, hrow, hle, hlt⟩
  refine ⟨totalWeight f front / totalWeight f row, ?_, ?_, fun u => ?_⟩
  · refine div_nonneg (totalWeight_nonneg fun d hd => hpos d ?_) htotal.le
    rw [hrow]
    exact List.mem_append_left _ hd
  · rw [← add_div, div_le_one htotal, hrow]
    exact totalWeight_le (hrow ▸ hpos)
  · rw [hplace, ← add_div, div_le_iff₀ htotal, lt_div_iff₀ htotal]

end Row

section Step

variable {ρ 𝕜 : Type} [RandomSource ρ] [Add 𝕜] [Sub 𝕜] [Mul 𝕜] [Div 𝕜] [LE 𝕜] [LT 𝕜] [BEq 𝕜]
  [OfScientific 𝕜] [DecidableLE 𝕜] [DecidableLT 𝕜] [Reckoning 𝕜]

/-- The answer of a selection, with the tally and the random source after it. -/
def step (specs : List (Spec 𝕜)) (elapsed duration : Quantity 𝕜) (t : Tally) (r : ρ) :
    Outcome (Option Kind) × Tally × ρ :=
  match select specs elapsed duration t r with
  | .error fault => (.error fault, t, r)
  | .ok none => (.ok none, t, r)
  | .ok (some (kind, t, r)) => (.ok (some kind), t, r)

theorem choose_weighted (c : Settings 𝕜) (elapsed duration : Int) (t : Tally) (r : ρ) :
    (Worker.weighted c).choose elapsed duration t r =
      ((step c.operations (.whole elapsed) (.whole duration) t r).1.bind fun choice =>
          choice.elim (.ok none) fun kind => (Operation.ready c kind).map fun _ => some kind,
        (step c.operations (.whole elapsed) (.whole duration) t r).2) := by
  simp only [Worker.weighted, step]
  cases select c.operations (.whole elapsed) (.whole duration) t r with
  | error fault => rfl
  | ok choice =>
      cases choice with
      | none => rfl
      | some choice => rfl

end Step

section Weighed

variable {ρ : Type} [RandomSource ρ] {specs : List (Spec ℚ)}
  {elapsed duration : Quantity ℚ} {t : Tally} {r : ρ} {f : ℚ}

/-- The random number between zero and one that is drawn. -/
def drawnUnit (r : ρ) : ℚ :=
  ((RandomSource.unit r).1 : ℚ) / 2 ^ 53

theorem drawnUnit_nonneg (r : ρ) : 0 ≤ drawnUnit r := by
  rw [drawnUnit]
  positivity

theorem drawnUnit_lt_one (r : ρ) : drawnUnit r < 1 := by
  have hlt : ((RandomSource.unit r).1 : ℚ) < 2 ^ 53 := by exact_mod_cast RandomSource.unit_lt r
  rw [drawnUnit, div_lt_one (by positivity)]
  exact hlt

theorem drawUnit_eq (r : ρ) : drawUnit r = (.ok (drawnUnit r), (RandomSource.unit r).2) := by
  rw [drawnUnit]
  change (Except.ok (((RandomSource.unit r).1 : Int) / ((2 ^ 53 : Int) : ℚ)), _) = _
  push_cast
  rfl

theorem weight_pos_of_mem_choosable : ∀ s ∈ choosable specs t f, 0 < s.weight f :=
  fun _ hs => (isOpen_iff.mp (List.of_mem_filter hs)).2

theorem step_of_negative (h : elapsed.value < 0 ∨ duration.value < 0) :
    step specs elapsed duration t r =
      (.error (.negativeTime elapsed.text duration.text), t, r) := by
  rw [step, select_of_fault (fraction_of_negative h)]

theorem step_of_choosable_eq_nil (hf : fraction elapsed duration = .ok f)
    (h : choosable specs t f = []) :
    step specs elapsed duration t r = (.ok none, t, r) := by
  have hnone : eligible specs t f = [] := by
    rw [eligible_eq, h]
    rfl
  rw [step, select_of_none hf hnone]

theorem step_of_pick {s : Spec ℚ} (hf : fraction elapsed duration = .ok f)
    (hne : choosable specs t f ≠ [])
    (h : pick (weighed f (choosable specs t f)) (drawnUnit r) = some s) :
    step specs elapsed duration t r =
      (.ok (some s.kind), t.add s.kind, (RandomSource.unit r).2) := by
  have hsome : eligible specs t f ≠ [] := by
    rw [eligible_eq]
    exact mt List.map_eq_nil_iff.mp hne
  rw [step, select_of_some hf hsome, drawUnit_eq, eligible_eq]
  simp only [Except.mapError, Except.map, h, Option.map_some]

/-- How one of the operations that can be chosen at a fraction of a run is selected: the answer,
the tally and the random source after it, and what the other numbers that might have been drawn
stand for. -/
structure IsWeightedChoice (specs : List (Spec ℚ)) (t : Tally) (r : ρ) (f : ℚ)
    (after : Outcome (Option Kind) × Tally × ρ) : Prop where
  /-- One number is drawn, and the operation that it stands for is selected and counted. -/
  selected : ∃ s, IsFirstBeyond f (drawnUnit r * totalWeight f (choosable specs t f))
    (choosable specs t f) s ∧ after = (.ok (some s.kind), t.add s.kind, (RandomSource.unit r).2) ∧
    ∀ kind, (t.add s.kind).count kind = t.count kind + if kind = s.kind then 1 else 0
  /-- The search never runs past the last operation. -/
  found : ∀ u, 0 ≤ u → u < 1 → ((accumulate 0 (eligible specs t f)).find? fun e =>
    u * totalWeight f (choosable specs t f) < e.2).isSome
  /-- Each operation stands for the numbers of an interval as long as its share of the weights. -/
  interval : ∀ s ∈ choosable specs t f, ∃ a, 0 ≤ a ∧
    a + s.weight f / totalWeight f (choosable specs t f) ≤ 1 ∧ ∀ u, 0 ≤ u → u < 1 →
      (pick (eligible specs t f) u = some s ↔
        a ≤ u ∧ u < a + s.weight f / totalWeight f (choosable specs t f))

theorem isWeightedChoice_step (hdistinct : (specs.map Spec.kind).Nodup)
    (hf : fraction elapsed duration = .ok f) (hne : choosable specs t f ≠ []) :
    IsWeightedChoice specs t r f (step specs elapsed duration t r) := by
  have hpos : ∀ s ∈ choosable specs t f, 0 < s.weight f := weight_pos_of_mem_choosable
  have hnodup : (choosable specs t f).Nodup := (List.Nodup.of_map _ hdistinct).filter _
  have htotal := totalWeight_pos hpos hne
  have hbeyond : ∀ u, 0 ≤ u → u < 1 →
      ∃ s, IsFirstBeyond f (u * totalWeight f (choosable specs t f)) (choosable specs t f) s :=
        fun u hu hu' =>
    exists_isFirstBeyond hpos (mul_nonneg hu htotal.le) (mul_lt_of_lt_one_left htotal hu')
  refine ⟨?selected, ?found, ?interval⟩
  case selected =>
    obtain ⟨s, hs⟩ := hbeyond (drawnUnit r) (drawnUnit_nonneg r) (drawnUnit_lt_one r)
    have hpick := (pick_eq_some_iff hpos hne (drawnUnit_nonneg r) (drawnUnit_lt_one r)).mpr hs
    exact ⟨s, hs, step_of_pick hf hne hpick, fun kind => Tally.count_add s.kind kind t⟩
  case found =>
    intro u hu hu'
    obtain ⟨s, hs⟩ := hbeyond u hu hu'
    obtain ⟨sum, hfind⟩ := find?_of_isFirstBeyond hpos hs
    rw [eligible_eq, hfind]
    rfl
  case interval =>
    intro s hs
    obtain ⟨a, ha, ha', hiff⟩ := exists_interval hpos hnodup hs
    refine ⟨a, ha, ha', fun u hu hu' => ?_⟩
    rw [eligible_eq, pick_eq_some_iff hpos hne hu hu', hiff]

theorem step_ne_of_weight_le (hdistinct : (specs.map Spec.kind).Nodup) {s : Spec ℚ}
    (hs : s ∈ specs) (hweight : s.weight (moment elapsed duration) ≤ 0) :
    (step specs elapsed duration t r).1 ≠ .ok (some s.kind) := by
  intro hanswer
  by_cases hnegative : elapsed.value < 0 ∨ duration.value < 0
  · rw [step_of_negative hnegative] at hanswer
    cases hanswer
  · obtain ⟨helapsed, hduration⟩ := not_or.mp hnegative
    have hf := fraction_of_nonneg (not_lt.mp helapsed) (not_lt.mp hduration)
    by_cases hnil : choosable specs t (moment elapsed duration) = []
    · rw [step_of_choosable_eq_nil hf hnil] at hanswer
      cases hanswer
    · obtain ⟨d, hd, hstep, -⟩ := (isWeightedChoice_step (r := r) hdistinct hf hnil).selected
      rw [hstep] at hanswer
      have hkind : d.kind = s.kind := Option.some.inj (Except.ok.inj hanswer)
      have hmem := hd.mem
      obtain rfl : d = s :=
        List.inj_on_of_nodup_map hdistinct (List.mem_of_mem_filter hmem) hs hkind
      exact (weight_pos_of_mem_choosable d hmem).not_ge hweight

/-- One selection, at any moment and with any number drawn. -/
theorem step_exact (hdistinct : (specs.map Spec.kind).Nodup)
    (elapsed duration : Quantity ℚ) (t : Tally) (r : ρ) :
    (elapsed.value < 0 ∨ duration.value < 0 →
      ∃ fault, step specs elapsed duration t r = (.error fault, t, r) ∧ fault.family = .value) ∧
    (0 ≤ elapsed.value → 0 ≤ duration.value →
      (choosable specs t (moment elapsed duration) = [] →
        step specs elapsed duration t r = (.ok none, t, r)) ∧
      (choosable specs t (moment elapsed duration) ≠ [] →
        IsWeightedChoice specs t r (moment elapsed duration) (step specs elapsed duration t r))) ∧
    ∀ s ∈ specs, s.weight (moment elapsed duration) ≤ 0 →
      (step specs elapsed duration t r).1 ≠ .ok (some s.kind) := by
  refine ⟨?negative, ?nonneg, fun s hs => step_ne_of_weight_le hdistinct hs⟩
  case negative =>
    intro h
    exact ⟨_, step_of_negative h, rfl⟩
  case nonneg =>
    intro helapsed hduration
    have hf := fraction_of_nonneg helapsed hduration
    exact ⟨step_of_choosable_eq_nil hf, isWeightedChoice_step hdistinct hf⟩

/-- Operations of which the first is used up after one selection, and the second has no weight at
the start. -/
def uneven : List (Spec ℚ) :=
  [⟨.create, 40, .constant 1, some 1⟩, ⟨.append, 20, .linear [⟨0, 0⟩, ⟨1, 1⟩], none⟩,
    ⟨.read, 30, .constant 1, some 4⟩, ⟨.delete, 10, .constant (1 / 2), none⟩]

theorem step_exact_uneven : (uneven.map Spec.kind).Nodup ∧
    (∃ fault, step uneven (.whole (-1)) (.whole 9) .empty (⟨⟩ : Zeros) =
      (.error fault, .empty, ⟨⟩) ∧ fault.family = .value) ∧
    IsWeightedChoice uneven (Tally.empty.add .create) (⟨⟩ : Zeros) 0
      (.ok (some .read), (Tally.empty.add .create).add .read, ⟨⟩) ∧
    (step uneven (.whole 0) (.whole 9) (Tally.empty.add .create) (⟨⟩ : Zeros)).1 ≠ .ok
    (some .append) := by
  have hdistinct : (uneven.map Spec.kind).Nodup := by decide
  have hmoment : moment (.whole 0) (.whole 9) = 0 := by decide +kernel
  have hopen : choosable uneven (Tally.empty.add .create) 0 ≠ [] := by decide +kernel
  have hfraction : fraction (.whole 0) (.whole 9) = .ok (0 : ℚ) := by
    rw [fraction_of_nonneg (by decide +kernel) (by decide +kernel), hmoment]
  have hstep : step uneven (.whole 0) (.whole 9) (Tally.empty.add .create) (⟨⟩ : Zeros) =
      (.ok (some .read), (Tally.empty.add .create).add .read, ⟨⟩) :=
    step_of_pick (s := ⟨.read, 30, .constant 1, some 4⟩) hfraction hopen (by decide +kernel)
  obtain ⟨hnegative, -⟩ := step_exact hdistinct (.whole (-1)) (.whole 9) .empty (⟨⟩ : Zeros)
  obtain ⟨-, hnonneg, hweightless⟩ :=
    step_exact hdistinct (.whole 0) (.whole 9) (Tally.empty.add .create) (⟨⟩ : Zeros)
  rw [hmoment] at hnonneg hweightless
  refine ⟨hdistinct, hnegative (by decide +kernel), ?_, ?_⟩
  · rw [← hstep]
    exact (hnonneg (by decide +kernel) (by decide +kernel)).2 hopen
  · exact hweightless ⟨.append, 20, .linear [⟨0, 0⟩, ⟨1, 1⟩], none⟩ (by decide +kernel)
      (by decide +kernel)

end Weighed

end StorageLoad.Selector
