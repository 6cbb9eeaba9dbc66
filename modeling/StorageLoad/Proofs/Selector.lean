import Mathlib.Algebra.BigOperators.Group.List.Basic
import Mathlib.Algebra.Ring.Nat
import Mathlib.Data.List.Nodup
import StorageLoad.Proofs.Double
import StorageLoad.Proofs.Random
import StorageLoad.Selector

/-!
Selections made one after the other, at any moments and with any random numbers.  A kind is
selected as often as the tally says and never beyond its limit, and while all weights are positive
the limits are used up one selection after the other, whatever is drawn (`selectAll_limits`).
-/

namespace StorageLoad

/-- The most times an operation with a limit may be selected; a limit below zero lets none
through. -/
def Spec.limit {𝕜 : Type} (s : Spec 𝕜) : Nat :=
  (s.maxCount.getD 0).toNat

namespace Selector

variable {ρ 𝕜 : Type} {specs : List (Spec 𝕜)} {t : Tally}

theorem isExhausted_eq_false_iff {s : Spec 𝕜} :
    isExhausted t s = false ↔ ∀ limit, s.maxCount = some limit →
      (t.count s.kind : Int) < limit := by
  simp [isExhausted, Option.any_eq_false]

/-- How many selections all limits leave. -/
def left (specs : List (Spec 𝕜)) (t : Tally) : Nat :=
  (specs.map fun s => s.limit - t.count s.kind).sum

theorem left_eq_zero_iff : left specs t = 0 ↔ ∀ s ∈ specs, s.limit ≤ t.count s.kind := by
  induction specs with
  | nil => simp [left]
  | cons s rest ih =>
      simp only [left, List.map_cons, List.sum_cons, List.forall_mem_cons, ← ih]
      omega

theorem isExhausted_eq_false_iff_lt {s : Spec 𝕜} (hlimit : s.maxCount.isSome) :
    isExhausted t s = false ↔ t.count s.kind < s.limit := by
  obtain ⟨limit, hlimit⟩ := Option.isSome_iff_exists.mp hlimit
  rw [isExhausted_eq_false_iff, Spec.limit, hlimit]
  simp only [Option.some.injEq, forall_eq', Option.getD_some]
  omega

theorem left_add_le_left (kind : Kind) : left specs (t.add kind) ≤ left specs t := by
  induction specs with
  | nil => exact Nat.le_refl _
  | cons d rest ih =>
      simp only [left, List.map_cons, List.sum_cons] at ih ⊢
      rw [Tally.count_add]
      omega

theorem left_add_le {s : Spec 𝕜} (hs : s ∈ specs) (hopen : t.count s.kind < s.limit) :
    left specs (t.add s.kind) + 1 ≤ left specs t := by
  induction specs with
  | nil => cases hs
  | cons d rest ih =>
      have hrest : left rest (t.add s.kind) ≤ left rest t := left_add_le_left s.kind
      simp only [left, List.map_cons, List.sum_cons] at hrest ih ⊢
      rcases List.mem_cons.mp hs with rfl | hs
      · rw [Tally.count_add, if_pos rfl]
        omega
      · have hstep := ih hs
        rw [Tally.count_add]
        omega

theorem left_add (hdistinct : (specs.map Spec.kind).Nodup) {s : Spec 𝕜} (hs : s ∈ specs)
    (hopen : t.count s.kind < s.limit) : left specs (t.add s.kind) + 1 = left specs t := by
  induction specs with
  | nil => cases hs
  | cons d rest ih =>
      obtain ⟨hfresh, hrest⟩ := List.nodup_cons.mp hdistinct
      simp only [left, List.map_cons, List.sum_cons]
      rcases List.mem_cons.mp hs with rfl | hs
      · have hsame : ∀ d ∈ rest, d.limit - (t.add s.kind).count d.kind =
            d.limit - t.count d.kind := by
          intro d hd
          have hne : d.kind ≠ s.kind := fun heq => hfresh (heq ▸ List.mem_map_of_mem hd)
          rw [Tally.count_add, if_neg hne, Nat.add_zero]
        rw [List.map_congr_left hsame, Tally.count_add, if_pos rfl]
        omega
      · have hne : d.kind ≠ s.kind := fun heq => hfresh (heq ▸ List.mem_map_of_mem hs)
        have hstep := ih hrest hs
        rw [Tally.count_add, if_neg hne]
        simp only [left] at hstep
        omega

section Pick

variable [Add 𝕜]

theorem mem_of_mem_accumulate {before w : 𝕜} {weights : List (Spec 𝕜 × 𝕜)} {s : Spec 𝕜}
    (h : (s, w) ∈ accumulate before weights) : ∃ v, (s, v) ∈ weights := by
  induction weights generalizing before with
  | nil => cases h
  | cons entry rest ih =>
      rcases List.mem_cons.mp h with heq | hmem
      · exact ⟨entry.2, by simp [(Prod.mk.inj heq).1]⟩
      · obtain ⟨v, hv⟩ := ih hmem
        exact ⟨v, List.mem_cons_of_mem _ hv⟩

variable [Mul 𝕜] [LT 𝕜] [OfScientific 𝕜] [DecidableLT 𝕜] {weights : List (Spec 𝕜 × 𝕜)}
  {s : Spec 𝕜}

theorem exists_mem_of_pick {unit : 𝕜} (h : pick weights unit = some s) :
    ∃ w, (s, w) ∈ weights := by
  obtain ⟨⟨last, total⟩, hlast, hs⟩ := Option.map_eq_some_iff.mp h
  cases hfind : (accumulate 0.0 weights).find? (fun e => unit * total < e.2) with
  | none =>
      obtain rfl : last = s := by simpa [hfind] using hs
      exact mem_of_mem_accumulate (List.mem_of_getLast? hlast)
  | some entry =>
      obtain rfl : entry.1 = s := by simpa [hfind] using hs
      exact mem_of_mem_accumulate (List.mem_of_find?_eq_some hfind)

theorem exists_pick (h : weights ≠ []) (unit : 𝕜) : ∃ s, pick weights unit = some s := by
  cases weights with
  | nil => exact absurd rfl h
  | cons entry rest => simp [pick, accumulate, List.getLast?_cons]

end Pick

section Eligible

variable [Add 𝕜] [Sub 𝕜] [Mul 𝕜] [Div 𝕜] [LT 𝕜] [BEq 𝕜] [OfScientific 𝕜] [DecidableLT 𝕜]

theorem mem_eligible_iff {f w : 𝕜} {s : Spec 𝕜} :
    (s, w) ∈ eligible specs t f ↔
      s ∈ specs ∧ isExhausted t s = false ∧ (0.0 : 𝕜) < s.weight f ∧ s.weight f = w := by
  simp only [eligible, List.mem_filterMap, List.mem_filter, Bool.not_eq_true']
  constructor
  · rintro ⟨d, ⟨hd, hopen⟩, hw⟩
    split at hw
    · rename_i hpos
      obtain ⟨rfl, rfl⟩ := Prod.mk.inj (Option.some.inj hw)
      exact ⟨hd, hopen, hpos, rfl⟩
    · cases hw
  · rintro ⟨hs, hopen, hpos, rfl⟩
    exact ⟨s, ⟨hs, hopen⟩, if_pos hpos⟩

end Eligible

section Select

variable [RandomSource ρ] [Add 𝕜] [Sub 𝕜] [Mul 𝕜] [Div 𝕜] [LE 𝕜] [LT 𝕜] [BEq 𝕜] [OfScientific 𝕜]
  [DecidableLE 𝕜] [DecidableLT 𝕜] [Reckoning 𝕜] {elapsed duration : Quantity 𝕜} {r : ρ}

theorem select_of_fault {fault : Fault} (h : fraction elapsed duration = .error fault) :
    select specs elapsed duration t r = .error fault := by
  rw [select, weights, h]
  rfl

theorem select_of_none {f : 𝕜} (h : fraction elapsed duration = .ok f)
    (hnone : eligible specs t f = []) : select specs elapsed duration t r = .ok none := by
  rw [select, weights, h]
  change (if (eligible specs t f).isEmpty then _ else _) = _
  rw [hnone]
  rfl

theorem select_of_some {f : 𝕜} (h : fraction elapsed duration = .ok f)
    (hsome : eligible specs t f ≠ []) :
    select specs elapsed duration t r =
      ((drawUnit (𝕜 := 𝕜) r).1.mapError Fault.number).map fun unit =>
      (pick (eligible specs t f) unit).map fun s =>
        (s.kind, t.add s.kind, (drawUnit (𝕜 := 𝕜) r).2) := by
  rw [select, weights, h]
  change (if (eligible specs t f).isEmpty then _ else _) = _
  rw [if_neg (by simpa using hsome)]
  rw [drawUnit]
  cases (Reckoning.quotient (RandomSource.unit r).1 (2 ^ 53) : Except NumberFault 𝕜)
  · rfl
  · rfl

/-- A selected operation is below its limit, and one more selection of it is counted. -/
theorem exists_of_select {kind : Kind} {t' : Tally} {r' : ρ}
    (h : select specs elapsed duration t r = .ok (some (kind, t', r'))) :
    t' = t.add kind ∧ ∃ s ∈ specs, s.kind = kind ∧ isExhausted t s = false := by
  cases hf : fraction elapsed duration with
  | error fault =>
      rw [select_of_fault hf] at h
      cases h
  | ok f =>
      by_cases hnone : eligible specs t f = []
      · rw [select_of_none hf hnone] at h
        cases h
      · rw [select_of_some hf hnone] at h
        cases hunit : (drawUnit (𝕜 := 𝕜) r).1 with
        | error cause =>
            rw [hunit] at h
            cases h
        | ok unit =>
            rw [hunit] at h
            obtain ⟨s, hs, heq⟩ := Option.map_eq_some_iff.mp (Except.ok.inj h)
            obtain ⟨rfl, hrest⟩ := Prod.mk.inj heq
            obtain ⟨rfl, -⟩ := Prod.mk.inj hrest
            obtain ⟨w, hw⟩ := exists_mem_of_pick hs
            obtain ⟨hmem, hopen, -⟩ := mem_eligible_iff.mp hw
            exact ⟨rfl, s, hmem, rfl, hopen⟩

end Select

section Row

/-- A selection: its moment, the duration of the run, and where its random number comes from. -/
structure Call (𝕜 ρ : Type) where
  elapsed : Quantity 𝕜
  duration : Quantity 𝕜
  random : ρ

/-- Whether an answer is an operation of a kind. -/
def gives (kind : Kind) : Outcome (Option Kind) → Bool
  | .ok (some k) => k = kind
  | _ => false

variable [RandomSource ρ] [Add 𝕜] [Sub 𝕜] [Mul 𝕜] [Div 𝕜] [LE 𝕜] [LT 𝕜] [BEq 𝕜] [OfScientific 𝕜]
  [DecidableLE 𝕜] [DecidableLT 𝕜] [Reckoning 𝕜]

def answerTo (specs : List (Spec 𝕜)) (call : Call 𝕜 ρ) (t : Tally) :
    Outcome (Option Kind) × Tally :=
  match select specs call.elapsed call.duration t call.random with
  | .ok (some (kind, t, _)) => (.ok (some kind), t)
  | .ok none => (.ok none, t)
  | .error fault => (.error fault, t)

/-- The answers to selections made one after the other, and the tally after them. -/
def selectAll (specs : List (Spec 𝕜)) :
    List (Call 𝕜 ρ) → Tally → List (Outcome (Option Kind)) × Tally
  | [], t => ([], t)
  | call :: calls, t =>
      ((answerTo specs call t).1 :: (selectAll specs calls (answerTo specs call t).2).1,
        (selectAll specs calls (answerTo specs call t).2).2)

theorem answerTo_cases (specs : List (Spec 𝕜)) (call : Call 𝕜 ρ) (t : Tally) :
    (∃ s ∈ specs, isExhausted t s = false ∧
        answerTo specs call t = (.ok (some s.kind), t.add s.kind)) ∨
      (answerTo specs call t).2 = t ∧ ∀ kind, ¬ gives kind (answerTo specs call t).1 := by
  rw [answerTo]
  split
  · rename_i kind t' r' h
    obtain ⟨rfl, s, hs, rfl, hopen⟩ := exists_of_select h
    exact Or.inl ⟨s, hs, hopen, rfl⟩
  · exact Or.inr ⟨rfl, by simp [gives]⟩
  · exact Or.inr ⟨rfl, by simp [gives]⟩

theorem count_answerTo (call : Call 𝕜 ρ) (t : Tally) (kind : Kind) :
    (answerTo specs call t).2.count kind =
      t.count kind + if gives kind (answerTo specs call t).1 then 1 else 0 := by
  rcases answerTo_cases specs call t with ⟨s, -, -, heq⟩ | ⟨heq, hnone⟩
  · rw [heq, Tally.count_add]
    simp [gives, eq_comm]
  · rw [heq, if_neg (hnone kind), Nat.add_zero]

theorem count_selectAll (calls : List (Call 𝕜 ρ)) (t : Tally) (kind : Kind) :
    (selectAll specs calls t).2.count kind =
      t.count kind + (selectAll specs calls t).1.countP (gives kind) := by
  induction calls generalizing t with
  | nil => simp [selectAll]
  | cons call calls ih =>
      rw [selectAll, ih, count_answerTo, List.countP_cons]
      omega

theorem drop_selectAll (calls : List (Call 𝕜 ρ)) (t : Tally) (n : Nat) :
    (selectAll specs calls t).1.drop n =
      (selectAll specs (calls.drop n) (selectAll specs (calls.take n) t).2).1 := by
  induction n generalizing calls t with
  | zero => simp [selectAll]
  | succ n ih =>
      cases calls with
      | nil => simp [selectAll]
      | cons call calls => simp [selectAll, ih]

/-- Whether an answer is an operation. -/
def givesAny : Outcome (Option Kind) → Bool
  | .ok (some _) => true
  | _ => false

theorem exists_gives {answer : Outcome (Option Kind)} (h : givesAny answer) :
    ∃ kind, gives kind answer := by
  match answer, h with
  | .ok (some kind), _ => exact ⟨kind, decide_eq_true rfl⟩

theorem countP_selectAll_le (hlimits : ∀ s ∈ specs, s.maxCount.isSome) (calls : List (Call 𝕜 ρ))
    (t : Tally) : (selectAll specs calls t).1.countP givesAny ≤ left specs t := by
  induction calls generalizing t with
  | nil => exact Nat.zero_le _
  | cons call calls ih =>
      rw [selectAll, List.countP_cons]
      have hrest := ih (answerTo specs call t).2
      rcases answerTo_cases specs call t with ⟨s, hs, hopen, heq⟩ | ⟨heq, hnone⟩
      · have hstep := left_add_le hs ((isExhausted_eq_false_iff_lt (hlimits s hs)).mp hopen)
        rw [heq] at hrest ⊢
        rw [givesAny, if_pos rfl]
        exact Nat.le_trans (Nat.succ_le_succ hrest) hstep
      · have hnot : ¬ givesAny (answerTo specs call t).1 := by
          intro h
          obtain ⟨kind, hkind⟩ := exists_gives h
          exact hnone kind hkind
        rw [heq] at hrest ⊢
        rw [if_neg hnot]
        exact hrest

section Limit

variable {s : Spec 𝕜} {limit : Int}

theorem lt_of_gives (hdistinct : (specs.map Spec.kind).Nodup) (hs : s ∈ specs)
    (hlimit : s.maxCount = some limit) {call : Call 𝕜 ρ}
    (h : gives s.kind (answerTo specs call t).1) : (t.count s.kind : Int) < limit := by
  rcases answerTo_cases specs call t with ⟨d, hd, hopen, heq⟩ | ⟨-, hnone⟩
  · rw [heq] at h
    have hkind : d.kind = s.kind := of_decide_eq_true h
    -- The kinds are distinct, so that no other operation counts towards the limit.
    obtain rfl : d = s := List.inj_on_of_nodup_map hdistinct hd hs hkind
    exact isExhausted_eq_false_iff.mp hopen limit hlimit
  · exact absurd h (hnone s.kind)

theorem count_selectAll_le (hdistinct : (specs.map Spec.kind).Nodup) (hs : s ∈ specs)
    (hlimit : s.maxCount = some limit) (calls : List (Call 𝕜 ρ))
    (ht : t.count s.kind ≤ limit.toNat) :
    (selectAll specs calls t).2.count s.kind ≤ limit.toNat := by
  induction calls generalizing t with
  | nil => exact ht
  | cons call calls ih =>
      apply ih
      rw [count_answerTo]
      split
      · rename_i hgives
        have hlt := lt_of_gives hdistinct hs hlimit hgives
        omega
      · exact ht

theorem not_gives_of_limit_le (hdistinct : (specs.map Spec.kind).Nodup) (hs : s ∈ specs)
    (hlimit : s.maxCount = some limit) (calls : List (Call 𝕜 ρ))
    (ht : limit ≤ t.count s.kind) :
    ∀ answer ∈ (selectAll specs calls t).1, ¬ gives s.kind answer := by
  induction calls generalizing t with
  | nil => simp [selectAll]
  | cons call calls ih =>
      have hfirst : ¬ gives s.kind (answerTo specs call t).1 := by
        intro hgives
        exact absurd (lt_of_gives hdistinct hs hlimit hgives) (Int.not_lt.mpr ht)
      intro answer hanswer
      rcases List.mem_cons.mp hanswer with rfl | hanswer
      · exact hfirst
      · apply ih _ answer hanswer
        rw [count_answerTo, if_neg hfirst]
        exact ht

end Limit

section Weighted

/-- The moment of a selection has a place in the run, and every operation has a positive weight
there. -/
def IsWeighted (specs : List (Spec 𝕜)) (call : Call 𝕜 ρ) : Prop :=
  ∃ f, fraction call.elapsed call.duration = .ok f ∧ ∀ s ∈ specs, (0.0 : 𝕜) < s.weight f

variable {call : Call 𝕜 ρ}

theorem answerTo_of_left_eq_zero (hlimits : ∀ s ∈ specs, s.maxCount.isSome)
    (hweighted : IsWeighted specs call) (h : left specs t = 0) :
    answerTo specs call t = (.ok none, t) := by
  obtain ⟨f, hf, -⟩ := hweighted
  have hnone : eligible specs t f = [] := by
    apply List.eq_nil_iff_forall_not_mem.mpr
    rintro ⟨s, w⟩ hmem
    obtain ⟨hs, hopen, -⟩ := mem_eligible_iff.mp hmem
    have hlt := (isExhausted_eq_false_iff_lt (hlimits s hs)).mp hopen
    exact absurd (left_eq_zero_iff.mp h s hs) (Nat.not_le.mpr hlt)
  rw [answerTo, select_of_none hf hnone]

theorem answerTo_of_left_pos (hdistinct : (specs.map Spec.kind).Nodup)
    (hlimits : ∀ s ∈ specs, s.maxCount.isSome) (hweighted : IsWeighted specs call)
    (hunit : ∃ unit : 𝕜, (drawUnit call.random).1 = .ok unit) (h : left specs t ≠ 0) :
    ∃ kind, (answerTo specs call t).1 = .ok (some kind) ∧
      left specs (answerTo specs call t).2 + 1 = left specs t := by
  obtain ⟨f, hf, hpos⟩ := hweighted
  have hsome : eligible specs t f ≠ [] := by
    intro hnone
    apply h
    apply left_eq_zero_iff.mpr
    intro s hs
    apply Nat.not_lt.mp
    intro hlt
    have hopen := (isExhausted_eq_false_iff_lt (hlimits s hs)).mpr hlt
    have hmem := mem_eligible_iff.mpr ⟨hs, hopen, hpos s hs, rfl⟩
    simp [hnone] at hmem
  obtain ⟨unit, hunit⟩ := hunit
  obtain ⟨s, hpick⟩ := exists_pick hsome unit
  obtain ⟨w, hmem⟩ := exists_mem_of_pick hpick
  obtain ⟨hs, hopen, -⟩ := mem_eligible_iff.mp hmem
  have hanswer : answerTo specs call t = (.ok (some s.kind), t.add s.kind) := by
    rw [answerTo, select_of_some hf hsome, hunit]
    simp [Except.mapError, Except.map, hpick]
  rw [hanswer]
  exact ⟨s.kind, rfl,
    left_add hdistinct hs ((isExhausted_eq_false_iff_lt (hlimits s hs)).mp hopen)⟩

variable {calls : List (Call 𝕜 ρ)}

theorem selectAll_left (hdistinct : (specs.map Spec.kind).Nodup)
    (hlimits : ∀ s ∈ specs, s.maxCount.isSome) (hweighted : ∀ call ∈ calls, IsWeighted specs call)
    (hunits : ∀ call ∈ calls, ∃ unit : 𝕜, (drawUnit call.random).1 = .ok unit) :
    (∀ answer ∈ (selectAll specs calls t).1.take (left specs t), ∃ kind,
      answer = .ok (some kind)) ∧
      (∀ answer ∈ (selectAll specs calls t).1.drop (left specs t), answer = .ok none) ∧
      left specs (selectAll specs calls t).2 = left specs t - calls.length := by
  induction calls generalizing t with
  | nil => simp [selectAll]
  | cons call calls ih =>
      obtain ⟨hcall, hcalls⟩ := List.forall_mem_cons.mp hweighted
      obtain ⟨hunit, hrest⟩ := List.forall_mem_cons.mp hunits
      simp only [selectAll, List.length_cons]
      by_cases h : left specs t = 0
      · obtain ⟨-, hnone, hleft⟩ := ih (t := t) hcalls hrest
        rw [answerTo_of_left_eq_zero hlimits hcall h]
        rw [h] at hnone hleft ⊢
        simpa using And.intro hnone hleft
      · obtain ⟨kind, hkind, hstep⟩ := answerTo_of_left_pos hdistinct hlimits hcall hunit h
        obtain ⟨hsome, hnone, hleft⟩ := ih (t := (answerTo specs call t).2) hcalls hrest
        -- One less is left after this answer: the place where the answers change moves with it.
        rw [← hstep, List.take_succ_cons, List.drop_succ_cons]
        refine ⟨List.forall_mem_cons.mpr ⟨⟨kind, hkind⟩, hsome⟩, hnone, ?_⟩
        omega

end Weighted

end Row

section Doubles

variable [RandomSource ρ]

theorem exists_drawUnit (r : ρ) : ∃ unit : Float, (drawUnit r).1 = .ok unit := by
  have hlt := RandomSource.unit_lt r
  apply Double.exists_quotient (n := (RandomSource.unit r).1) (d := 2 ^ 53)
  omega

theorem exists_fraction {elapsed duration : Int} (helapsed : 0 ≤ elapsed)
    (hduration : 0 < duration) (hbound : elapsed.natAbs ≤ 2 ^ 1020 * duration.natAbs) :
    ∃ f : Float, fraction (.whole elapsed) (.whole duration) = .ok f := by
  obtain ⟨ratio, hratio⟩ := Double.exists_quotient hbound
  have hdivide : divide (.whole elapsed) (.whole duration) = .ok ratio := hratio
  have hsigns : (Quantity.isNegative (𝕜 := Float) (.whole elapsed) ||
      Quantity.isNegative (𝕜 := Float) (.whole duration)) = false := by
    simp only [Quantity.isNegative, Bool.or_eq_false_iff, decide_eq_false_iff_not]
    omega
  have hzero : Quantity.isZero (𝕜 := Float) (.whole duration) = false := by
    simp only [Quantity.isZero, decide_eq_false_iff_not]
    omega
  rw [fraction, hsigns, hzero, hdivide]
  exact ⟨_, rfl⟩

theorem exists_select (specs : List (Spec Float)) {elapsed duration : Int}
    (helapsed : 0 ≤ elapsed) (hduration : 0 < duration)
    (hbound : elapsed.natAbs ≤ 2 ^ 1020 * duration.natAbs) (t : Tally) (r : ρ) :
    ∃ choice, select specs (.whole elapsed) (.whole duration) t r = .ok choice := by
  obtain ⟨f, hf⟩ := exists_fraction helapsed hduration hbound
  by_cases hnone : eligible specs t f = []
  · exact ⟨none, select_of_none hf hnone⟩
  · obtain ⟨unit, hunit⟩ := exists_drawUnit r
    rw [select_of_some hf hnone, hunit]
    exact ⟨_, rfl⟩

/-- The laws of limits over selections at any moments and with any draws: the tally counts the
answers, no limit is passed, and a used up operation is not selected again.  Where every operation
has a limit and a positive weight, the selections first use up all limits, none of them in vain,
and then find nothing. -/
theorem selectAll_limits (specs : List (Spec Float)) (calls : List (Call Float ρ))
    (hdistinct : (specs.map Spec.kind).Nodup) :
    (∀ kind, (selectAll specs calls .empty).2.count kind =
        (selectAll specs calls .empty).1.countP (gives kind)) ∧
      (∀ s ∈ specs, ∀ limit, s.maxCount = some limit →
        (selectAll specs calls .empty).2.count s.kind ≤ limit.toNat ∧
          ∀ n, limit ≤ (selectAll specs (calls.take n) .empty).2.count s.kind →
            ∀ answer ∈ (selectAll specs calls .empty).1.drop n, ¬ gives s.kind answer) ∧
      ((∀ s ∈ specs, s.maxCount.isSome) → (∀ call ∈ calls, IsWeighted specs call) →
        (∀ answer ∈ (selectAll specs calls .empty).1.take (specs.map Spec.limit).sum,
          ∃ kind, answer = .ok (some kind)) ∧
        (∀ answer ∈ (selectAll specs calls .empty).1.drop (specs.map Spec.limit).sum,
          answer = .ok none) ∧
        ((specs.map Spec.limit).sum ≤ calls.length →
          ∀ s ∈ specs, (selectAll specs calls .empty).2.count s.kind = s.limit)) := by
  have hempty : ∀ kind, Tally.empty.count kind = 0 := fun _ => rfl
  have hfresh : left specs .empty = (specs.map Spec.limit).sum := rfl
  refine ⟨?counted, ?bounded, ?usedUp⟩
  case counted =>
    intro kind
    rw [count_selectAll, hempty, Nat.zero_add]
  case bounded =>
    intro s hs limit hlimit
    constructor
    · exact count_selectAll_le hdistinct hs hlimit calls (Nat.zero_le _)
    · intro n hn
      rw [drop_selectAll]
      exact not_gives_of_limit_le hdistinct hs hlimit (calls.drop n) hn
  case usedUp =>
    intro hlimits hweighted
    obtain ⟨hsome, hnone, hleft⟩ := selectAll_left (t := .empty) hdistinct hlimits hweighted
      fun call _ => exists_drawUnit call.random
    rw [hfresh] at hsome hnone hleft
    refine ⟨hsome, hnone, ?_⟩
    intro hlong s hs
    apply Nat.le_antisymm
    · obtain ⟨limit, hlimit⟩ := Option.isSome_iff_exists.mp (hlimits s hs)
      rw [Spec.limit, hlimit]
      exact count_selectAll_le hdistinct hs hlimit calls (Nat.zero_le _)
    · rw [Nat.sub_eq_zero_of_le hlong] at hleft
      exact left_eq_zero_iff.mp hleft s hs

/-- Two operations with limits, one of which grows rarer in the course of the run. -/
def limited : List (Spec Float) :=
  [⟨.create, 50.0, .constant 1.0, some 2⟩,
    ⟨.read, 50.0, .linear [⟨0.0, 1.0⟩, ⟨1.0, 0.1⟩], some 1⟩]

/-- Four selections, the last of them after the end of the run. -/
def moments : List (Call Float Zeros) :=
  [0, 250, 999, 1001].map fun elapsed => ⟨.whole elapsed, .whole 1000, ⟨⟩⟩

theorem selectAll_limits_moments :
    (limited.map Spec.kind).Nodup ∧ (∀ s ∈ limited, s.maxCount.isSome) ∧
      (∀ call ∈ moments, IsWeighted limited call) ∧
      (∀ answer ∈ (selectAll limited moments .empty).1.take 3, ∃ kind, answer = .ok (some kind)) ∧
      (∀ answer ∈ (selectAll limited moments .empty).1.drop 3, answer = .ok none) ∧
      (selectAll limited moments .empty).2.count .create = 2 ∧
      (selectAll limited moments .empty).2.count .read = 1 := by
  have hdistinct : (limited.map Spec.kind).Nodup := by decide
  have hlimits : ∀ s ∈ limited, s.maxCount.isSome := by decide
  have hweighted : ∀ call ∈ moments, IsWeighted limited call := by
    intro call hcall
    obtain ⟨elapsed, hmem, rfl⟩ := List.mem_map.mp hcall
    simp only [List.mem_cons, List.not_mem_nil, or_false] at hmem
    rcases hmem with rfl | rfl | rfl | rfl
    all_goals exact ⟨_, rfl, by decide +kernel⟩
  obtain ⟨-, -, husedUp⟩ := selectAll_limits limited moments hdistinct
  obtain ⟨hsome, hnone, hcounts⟩ := husedUp hlimits hweighted
  obtain ⟨hcreate, hread, -⟩ := List.forall_mem_cons.mp (hcounts (by decide)) |>.imp_right
    List.forall_mem_cons.mp
  exact ⟨hdistinct, hlimits, hweighted, hsome, hnone, hcreate, hread⟩

end Doubles

end Selector

end StorageLoad
