import StorageLoad.Proofs.Config.Entries
import StorageLoad.Proofs.Config.Reading

/-!
The percentages of the operations.  Those that are stated lie between zero and a hundred; the
others share what is left, and are finite and not negative either (`isPercentage_of_percents`).
-/

namespace StorageLoad

/-- A finite number, not below zero and not far above a hundred. -/
structure IsPercentage (x : Float) : Prop where
  isFinite : Double.isFinite x
  isAmount : Double.IsAmount (Double.parts x)
  value_le : Double.value x ≤ 256

namespace Options

open Double

variable {given : List (Option Float)}

theorem isNear_hundred_sub {t : Float} (ht : IsAmount (parts t)) (hpos : 0.0 < 100.0 - t) :
    IsNear (100 - value t) (parts (100.0 - t)) ∧ value t ≤ 100 := by
  have hhundred : worth (parts 100.0) = 100 := value_hundred
  have hnonneg : 0 ≤ worth (parts t) := ht.worth_nonneg
  have hle : IsNumber (parts t) ∧ worth (parts t) ≤ 100 := by
    -- Were the sum above a hundred or not finite, the difference would have the sign of a
    -- negative number.
    by_contra h
    apply not_pos_of_hasSign _ hpos
    rw [parts_sub]
    apply HasSign.settle
    apply HasSign.sub_of_not_le isNumber_hundred ht (isCanonical_parts t)
    intro hnumber
    rw [hhundred]
    exact not_le.mp fun hle => h ⟨hnumber, hle⟩
  obtain ⟨hnumber, hle⟩ := hle
  have hbound : |worth (parts 100.0) - worth (parts t)| ≤ overflowBound := by
    rw [hhundred, abs_of_nonneg (by linarith)]
    have hmoderate := moderate_mul_le (k := 10) (by decide)
    have hone := one_le_moderate
    linarith
  have hnear := isNear_sub isNumber_hundred hnumber hbound
  rw [hhundred, ← parts_sub] at hnear
  exact ⟨hnear, hle⟩

theorem bounds_of_leftover (hgiven : ∀ x ∈ given.filterMap id, IsAmount (parts x)) :
    IsNumber (parts (leftover given)) ∧ IsAmount (parts (leftover given)) ∧
      value (leftover given) ≤ 120 := by
  rw [leftover]
  split
  · rename_i hpos
    have htotal := isAmount_foldl hgiven (x := 0.0) (.zero _)
    obtain ⟨hnear, hle⟩ := isNear_hundred_sub htotal hpos
    refine ⟨hnear.isNumber, isAmount_of_pos hpos, ?_⟩
    have hnonneg : 0 ≤ value ((given.filterMap id).foldl (· + ·) 0.0) := htotal.worth_nonneg
    have hvalue := hnear.le (by linarith)
    have herror := relativeError_le
    have hleast := leastPositive_le_one
    have hproduct : (100 - value ((given.filterMap id).foldl (· + ·) 0.0)) * (1 + relativeError) ≤
        100 * (1 + 1 / 2 ^ 10) := by
      have hpositive := relativeError_pos
      gcongr
      linarith
    change worth _ ≤ 120
    linarith
  · refine ⟨.zero _, .zero _, ?_⟩
    rw [value_zero]
    norm_num

theorem isNear_equalShare {x count : Float} {n : Nat} (hnumber : IsNumber (parts x))
    (hamount : IsAmount (parts x)) (hle : value x ≤ 120) (hn : 1 ≤ n)
    (hcount : Double.ofInt n = .ok count) :
    n * (1 - 2 * relativeError) ≤ value count ∧ 0 < value count ∧ value x / value count ≤ 150 ∧
      IsNear (value x / value count) (parts (x / count)) := by
  have hnear := isNear_ofInt hcount
  have herror := relativeError_le
  have hleast := leastPositive_le
  have hpositive := relativeError_pos
  have hn' : (1 : ℚ) ≤ n := by exact_mod_cast hn
  have hcount' : n * (1 - 2 * relativeError) ≤ value count := by
    have hlow : ((n : Int) : ℚ) * (1 - relativeError) - leastPositive ≤ value count :=
      hnear.ge (by rw [Int.cast_natCast]; linarith)
    have hleast' : leastPositive ≤ n * relativeError := by nlinarith
    rw [Int.cast_natCast] at hlow
    linarith
  have hlow : 9 / 10 ≤ value count := by
    have hproduct : 1 * (1 - 2 * (1 / 2 ^ 10)) ≤ (n : ℚ) * (1 - 2 * relativeError) := by gcongr
    linarith
  have hpos : 0 < value count := by linarith
  have hquotient : value x / value count ≤ 150 := by
    rw [div_le_iff₀ hpos]
    linarith
  have hbound : value x / value count ≤ overflowBound := by
    have hmoderate := moderate_mul_le (k := 10) (by decide)
    have hone := one_le_moderate
    linarith
  exact ⟨hcount', hpos, hquotient, isNear_quotient hamount
    (isAmount_ofInt (Int.natCast_nonneg n) hcount) hnumber hnear.isNumber hpos.ne' hbound⟩

theorem isPercentage_share {x count : Float} {n : Nat} (hnumber : IsNumber (parts x))
    (hamount : IsAmount (parts x)) (hle : value x ≤ 120) (hn : 1 ≤ n)
    (hcount : Double.ofInt n = .ok count) : IsPercentage (x / count) := by
  obtain ⟨-, hpos, hquotient, hnear⟩ := isNear_equalShare hnumber hamount hle hn hcount
  refine ⟨(isFinite_iff _).mpr hnear.isNumber, ?_, ?_⟩
  · exact isAmount_div hamount (isAmount_ofInt (Int.natCast_nonneg n) hcount) hpos.ne'
  · have hvalue := hnear.le (div_nonneg hamount.worth_nonneg hpos.le)
    have herror := relativeError_le
    have hpositive := relativeError_pos
    have hleast := leastPositive_le_one
    have hproduct : value x / value count * (1 + relativeError) ≤ 150 * (1 + 1 / 2 ^ 10) := by
      gcongr
    change worth _ ≤ 256
    linarith

theorem isPermitted_of_stated {entries : List (Kind × Options)} (h : stated entries = .ok given) :
    ∀ x ∈ given.filterMap id, Config.IsPermitted (some (.whole 100)) x := by
  intro x hx
  obtain ⟨g, hg, hgx⟩ := List.mem_filterMap.mp hx
  obtain ⟨entry, -, hread⟩ := Outcome.exists_of_mapM h g hg
  obtain ⟨v, hv⟩ := of_readIf hread x hgx
  exact (Config.of_number hv).2

/-- Stated percentages are between zero and a hundred, and so are the others but for rounding. -/
theorem isPercentage_of_percents {entries : List (Kind × Options)} {result : List Float}
    (h : percents entries = .ok result) : ∀ p ∈ result, IsPercentage p := by
  rw [percents_eq] at h
  obtain ⟨given, hgiven, h⟩ := Outcome.exists_of_bind h
  obtain ⟨count, hcount, h⟩ := Outcome.exists_of_bind h
  obtain rfl := Except.ok.inj h
  have hstated := isPermitted_of_stated hgiven
  intro p hp
  obtain ⟨g, hg, rfl⟩ := List.mem_map.mp hp
  cases g with
  | some x =>
      have hpermitted := hstated x (List.mem_filterMap.mpr ⟨some x, hg, rfl⟩)
      refine ⟨hpermitted.isFinite, hpermitted.isAmount, (hpermitted.value_le 100 rfl).trans ?_⟩
      norm_num
  | none =>
      obtain ⟨hnumber, hamount, hle⟩ := bounds_of_leftover fun x hx => (hstated x hx).isAmount
      apply isPercentage_share hnumber hamount hle _ (eq_ok_of_mapError hcount)
      exact List.countP_pos_iff.mpr ⟨none, hg, rfl⟩

section Total

theorem leftover_le (hgiven : ∀ x ∈ given.filterMap id, IsNumber (parts x) ∧ IsAmount (parts x))
    (hsum : ((given.filterMap id).map value).sum ≤ 100)
    (hlength : (given.filterMap id).length ≤ 2 ^ 50) :
    value (leftover given) ≤ (100 - ((given.filterMap id).map value).sum +
      (given.filterMap id).length * (100 * relativeError + leastPositive)) * (1 + relativeError) +
        leastPositive := by
  have hpositive := relativeError_pos
  have hleast := leastPositive_pos
  have hnonneg : 0 ≤ ((given.filterMap id).map value).sum := by
    apply List.sum_nonneg
    rw [List.forall_mem_map]
    exact fun x hx => (hgiven x hx).2.worth_nonneg
  rw [leftover]
  generalize given.filterMap id = stated at *
  have htotal : ((stated.map value).sum - stated.length * (100 * relativeError + leastPositive)) ≤
      value (stated.foldl (· + ·) 0.0) := by
    have hzero : IsNumber (parts 0.0) := .zero _
    have hroom : (value 0.0 + (stated.map value).sum + stated.length) *
        (1 + relativeError) ^ stated.length ≤ overflowBound := by
      have hlength' : (stated.length : ℚ) ≤ 2 ^ 50 := by exact_mod_cast hlength
      have hpow := one_add_relativeError_pow_le (hlength.trans (by decide))
      have hmoderate := two_pow_le_moderate (k := 50) (by decide)
      have hbound := moderate_mul_le (k := 10) (by decide)
      have hone := one_le_moderate
      rw [value_zero, zero_add]
      calc
        ((stated.map value).sum + stated.length) * (1 + relativeError) ^ stated.length ≤
            (100 + 2 ^ 50) * 2 := by gcongr
        _ ≤ overflowBound := by linarith
    obtain ⟨-, hlow, -⟩ := bounds_of_foldl hgiven hzero (.zero _) hroom
    have hpow := one_sub_le_pow (n := stated.length)
    rw [value_zero, zero_add] at hlow
    have hscaled : (stated.map value).sum * (1 - stated.length * relativeError) ≤
        (stated.map value).sum * (1 - relativeError) ^ stated.length := by gcongr
    have herror : (stated.map value).sum * (stated.length * relativeError) ≤
        100 * (stated.length * relativeError) := by gcongr
    linarith
  split
  · rename_i hpos
    have hamount := isAmount_foldl (fun x hx => (hgiven x hx).2) (x := 0.0) (.zero _)
    obtain ⟨hnear, hle⟩ := isNear_hundred_sub hamount hpos
    have hvalue : value (100.0 - stated.foldl (· + ·) 0.0) ≤
        (100 - value (stated.foldl (· + ·) 0.0)) * (1 + relativeError) + leastPositive :=
      hnear.le (by linarith)
    refine hvalue.trans ?_
    gcongr
    linarith
  · rw [value_zero]
    have hlength : (0 : ℚ) ≤ stated.length := Nat.cast_nonneg _
    have hleft : 0 ≤ 100 - (stated.map value).sum := by linarith
    positivity

theorem sum_getD (given : List (Option Float)) (share : Float) :
    ((given.map (·.getD share)).map value).sum =
      ((given.filterMap id).map value).sum + given.countP Option.isNone * value share := by
  induction given with
  | nil => simp
  | cons g given ih =>
      rw [List.map_cons, List.map_cons, List.sum_cons, ih]
      cases g with
      | none =>
          rw [List.filterMap_cons_none rfl, List.countP_cons_of_pos rfl, Option.getD_none]
          push_cast
          ring
      | some x =>
          have hcons : (some x :: given).filterMap id = x :: given.filterMap id := rfl
          rw [hcons, List.countP_cons_of_neg (by simp), Option.getD_some, List.map_cons,
            List.sum_cons]
          ring

theorem le_of_equalShares {ε τ stated m k left share : ℚ} (hε : 0 < ε) (hε' : ε ≤ 1 / 2 ^ 10)
    (hτ : 0 ≤ τ) (hτ' : τ ≤ ε ^ 2) (hstated : 0 ≤ stated) (hstated' : stated ≤ 100) (hm : 0 ≤ m)
    (hk : 0 ≤ k) (hleft : left ≤ (100 - stated + m * (100 * ε + τ)) * (1 + ε) + τ)
    (hshare : k * share ≤ left / (1 - 2 * ε) * (1 + ε) + k * τ) :
    stated + k * share ≤ 100 + ε * (101 * (m + k) + 700) := by
  have hτε : τ ≤ ε * (1 / 2 ^ 10) := by
    rw [pow_two] at hτ'
    exact hτ'.trans (by gcongr)
  have hnonneg : 0 ≤ 100 - stated + m * (100 * ε + τ) := by
    have hleft : 0 ≤ 100 - stated := by linarith
    positivity
  have hsmall : m * (100 * ε + τ) ≤ m * (1 / 8) := by
    gcongr
    linarith
  have hmτ : m * τ ≤ m * (ε * (1 / 2 ^ 10)) := by gcongr
  have hkτ : k * τ ≤ k * (ε * (1 / 2 ^ 10)) := by gcongr
  have hmε : 0 ≤ m * ε := by positivity
  have hkε : 0 ≤ k * ε := by positivity
  generalize hrest : 100 - stated + m * (100 * ε + τ) = rest at hleft hnonneg
  have hden : 0 < 1 - 2 * ε := by linarith
  have hfactor : (1 + ε) ^ 2 ≤ (1 + 5 * ε) * (1 - 2 * ε) := by nlinarith
  have hrounded : left / (1 - 2 * ε) * (1 + ε) ≤ rest * (1 + 5 * ε) + 2 * τ := by
    rw [div_mul_eq_mul_div, div_le_iff₀ hden]
    calc
      left * (1 + ε) ≤ (rest * (1 + ε) + τ) * (1 + ε) := by gcongr
      _ = rest * (1 + ε) ^ 2 + τ * (1 + ε) := by ring
      _ ≤ rest * ((1 + 5 * ε) * (1 - 2 * ε)) + τ * (2 * (1 - 2 * ε)) := by
          gcongr
          linarith
      _ = (rest * (1 + 5 * ε) + 2 * τ) * (1 - 2 * ε) := by ring
  have hscaled : rest * ε ≤ (100 + m * (1 / 8)) * ε := by
    gcongr
    linarith
  linarith

/-- Percentages that are stated to come to no more than a hundred do so with the others but for
rounding. -/
theorem sum_percents_le {entries : List (Kind × Options)} {given : List (Option Float)}
    {result : List Float} (hgiven : stated entries = .ok given)
    (h : percents entries = .ok result) (hsum : ((given.filterMap id).map value).sum ≤ 100)
    (hlength : entries.length ≤ 2 ^ 50) :
    (result.map value).sum ≤ 100 + relativeError * (101 * entries.length + 700) := by
  rw [percents_eq] at h
  obtain ⟨given', hgiven', h⟩ := Outcome.exists_of_bind h
  obtain rfl := Except.ok.inj (hgiven.symm.trans hgiven')
  obtain ⟨count, hcount, h⟩ := Outcome.exists_of_bind h
  obtain rfl := Except.ok.inj h
  have hpermitted := isPermitted_of_stated hgiven
  have hnonneg : 0 ≤ ((given.filterMap id).map value).sum := by
    apply List.sum_nonneg
    rw [List.forall_mem_map]
    exact fun x hx => (hpermitted x hx).isAmount.worth_nonneg
  have hparts : (given.filterMap id).length + given.countP Option.isNone = entries.length := by
    rw [(forall₂_of_mapM hgiven).length_eq, List.length_filterMap_eq_countP,
      List.length_eq_countP_add_countP Option.isSome]
    refine congrArg₂ (· + ·) rfl (List.countP_congr fun g _ => ?_)
    cases g with
    | none => simp
    | some x => simp
  have hparts' : ((given.filterMap id).length : ℚ) + given.countP Option.isNone =
      entries.length := by
    exact_mod_cast hparts
  have hpositive := relativeError_pos
  rw [sum_getD]
  -- Where every percentage is stated nothing is shared out, and the count is no divisor.
  by_cases hnone : given.countP Option.isNone = 0
  · rw [hnone, Nat.cast_zero, zero_mul, add_zero]
    have herror : 0 ≤ relativeError * (101 * entries.length + 700) := by positivity
    linarith
  · obtain ⟨hnumber, hamount, hle⟩ := bounds_of_leftover fun x hx => (hpermitted x hx).isAmount
    obtain ⟨hlow, hpos, -, hnear⟩ := isNear_equalShare hnumber hamount hle
      (Nat.one_le_iff_ne_zero.mpr hnone) (eq_ok_of_mapError hcount)
    have hleft := leftover_le (fun x hx =>
      ⟨(isFinite_iff x).mp (hpermitted x hx).isFinite, (hpermitted x hx).isAmount⟩)
        hsum (by omega)
    have hleftpos : 0 ≤ value (leftover given) := hamount.worth_nonneg
    have herror := relativeError_le
    have hden : 0 < 1 - 2 * relativeError := by linarith
    have hshare : value (leftover given / count) ≤
        value (leftover given) / value count * (1 + relativeError) + leastPositive :=
      hnear.le (div_nonneg hleftpos hpos.le)
    have hquotient : given.countP Option.isNone * (value (leftover given) / value count) ≤
        value (leftover given) / (1 - 2 * relativeError) := by
      rw [mul_div_assoc', div_le_div_iff₀ hpos hden]
      nlinarith
    rw [← hparts']
    refine le_of_equalShares hpositive herror leastPositive_pos.le leastPositive_le hnonneg hsum
      (Nat.cast_nonneg _) (Nat.cast_nonneg _) hleft ?_
    calc
      given.countP Option.isNone * value (leftover given / count) ≤
          given.countP Option.isNone *
            (value (leftover given) / value count * (1 + relativeError) +
            leastPositive) := by gcongr
      _ = given.countP Option.isNone * (value (leftover given) / value count) *
        (1 + relativeError) +
          given.countP Option.isNone * leastPositive := by ring
      _ ≤ value (leftover given) / (1 - 2 * relativeError) * (1 + relativeError) +
          given.countP Option.isNone * leastPositive := by gcongr

end Total

end Options

end StorageLoad
