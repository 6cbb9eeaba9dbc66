import Mathlib.Algebra.BigOperators.Group.List.Basic
import StorageLoad.Proofs.Config.Percent
import StorageLoad.Proofs.Config.WellFormed
import StorageLoad.Proofs.Selector

/-!
The total number of operations as a ceiling.  Limits are derived from shares that are rounded
down, and what is handed out on top fills up to the total and no further (`sum_limits_le`), so
that the ceiling holds as long as the shares themselves keep to it (`le_totalOps_of_settings`).
-/

namespace StorageLoad

namespace Shares

open Double

theorem share_eq (total : Int) (p : Float) :
    share total (.real p) = (Double.ofInt total).map fun t => t * p / 100.0 := by
  rw [share]
  change (Double.ofInt total >>= fun t => _) = _
  cases Double.ofInt total with
  | error cause => rfl
  | ok t => rfl

theorem le_of_three_roundings {ε τ n p a b c : ℚ} (hε : 0 ≤ ε) (hε' : ε ≤ 1 / 2 ^ 10) (hτ : 0 ≤ τ)
    (hp : 0 ≤ p) (hp' : p ≤ 256) (ha : a ≤ n * (1 + ε) + τ) (hb : b ≤ a * p * (1 + ε) + τ)
    (hc : c ≤ b / 100 * (1 + ε) + τ) : c ≤ n * p / 100 * (1 + ε) ^ 3 + 5 * τ := by
  have hfactor : p * (1 + ε) ^ 2 + (1 + ε) ≤ 400 := by
    calc
      p * (1 + ε) ^ 2 + (1 + ε) ≤ 256 * (1 + 1 / 2 ^ 10) ^ 2 + (1 + 1 / 2 ^ 10) := by gcongr
      _ ≤ 400 := by norm_num
  calc
    c ≤ b / 100 * (1 + ε) + τ := hc
    _ ≤ ((n * (1 + ε) + τ) * p * (1 + ε) + τ) / 100 * (1 + ε) + τ := by
        gcongr
        exact hb.trans (by gcongr)
    _ = n * p / 100 * (1 + ε) ^ 3 + τ * (p * (1 + ε) ^ 2 + (1 + ε)) / 100 + τ := by ring
    _ ≤ n * p / 100 * (1 + ε) ^ 3 + τ * 400 / 100 + τ := by gcongr
    _ = n * p / 100 * (1 + ε) ^ 3 + 5 * τ := by ring

theorem exists_of_share {total : Int} {p x : Float} (h : share total (.real p) = .ok x) :
    ∃ t, Double.ofInt total = .ok t ∧ x = t * p / 100.0 := by
  rw [share_eq] at h
  cases ht : Double.ofInt total with
  | error cause =>
      rw [ht] at h
      cases h
  | ok t =>
      rw [ht] at h
      exact ⟨t, rfl, (Except.ok.inj h).symm⟩

theorem isAmount_share {total : Int} {p x : Float} (hnonneg : 0 ≤ total) (hp : IsPercentage p)
    (h : share total (.real p) = .ok x) : IsAmount (parts x) := by
  obtain ⟨t, ht, rfl⟩ := exists_of_share h
  have hproduct := isAmount_mul (isAmount_ofInt hnonneg ht) hp.isAmount (isNear_ofInt ht).isNumber
    ((isFinite_iff p).mp hp.isFinite)
  exact isAmount_div hproduct isAmount_hundred value_hundred_ne_zero

theorem bounds_of_share {total : Int} {p x : Float} (hnonneg : 0 ≤ total)
    (hsmall : (total : ℚ) ≤ moderate) (hp : IsPercentage p) (h : share total (.real p) = .ok x) :
    IsNumber (parts x) ∧ IsAmount (parts x) ∧
      value x ≤ total * value p / 100 * (1 + relativeError) ^ 3 + 5 * leastPositive := by
  have hamount := isAmount_share hnonneg hp h
  obtain ⟨t, ht, rfl⟩ := exists_of_share h
  have hpnumber := (isFinite_iff p).mp hp.isFinite
  have hpnonneg : 0 ≤ value p := hp.isAmount.worth_nonneg
  have htnear := isNear_ofInt ht
  have htamount := isAmount_ofInt hnonneg ht
  have htnonneg : 0 ≤ value t := htamount.worth_nonneg
  have htle : value t ≤ total * (1 + relativeError) + leastPositive :=
    htnear.le (Int.cast_nonneg hnonneg)
  have herror := relativeError_le
  have hpositive := relativeError_pos
  have hleast := leastPositive_le_one
  have hone := one_le_moderate
  -- The product and the quotient stay far below the overflow, so each adds one rounding.
  have hproduct : value t * value p ≤ moderate * 2 ^ 10 := by
    have hscaled : (total : ℚ) * (1 + relativeError) ≤ moderate * (1 + 1 / 2 ^ 10) := by gcongr
    calc
      value t * value p ≤ moderate * 4 * 256 := by
          have hmoderate : 0 ≤ moderate * 4 := by linarith
          gcongr
          · linarith
          · exact hp.value_le
      _ = moderate * 2 ^ 10 := by ring
  have hpnear := isNear_product htamount hp.isAmount htnear.isNumber hpnumber
    (hproduct.trans (moderate_mul_le (by decide)))
  have hpamount := isAmount_mul htamount hp.isAmount htnear.isNumber hpnumber
  have hple : value (t * p) ≤ value t * value p * (1 + relativeError) + leastPositive :=
    hpnear.le (mul_nonneg htnonneg hpnonneg)
  have hquotient : value (t * p) / 100 ≤ moderate * 2 ^ 12 := by
    have hscaled : value t * value p * (1 + relativeError) ≤ moderate * 2 ^ 10 *
        (1 + 1 / 2 ^ 10) := by
      gcongr
    linarith
  have hbound : value (t * p) / value 100.0 ≤ overflowBound := by
    rw [value_hundred]
    exact hquotient.trans (moderate_mul_le (by decide))
  have hxnear := isNear_quotient hpamount isAmount_hundred hpnear.isNumber isNumber_hundred
    value_hundred_ne_zero hbound
  rw [value_hundred] at hxnear
  refine ⟨hxnear.isNumber, hamount, ?_⟩
  exact le_of_three_roundings hpositive.le herror leastPositive_pos.le hpnonneg
    hp.value_le htle hple (hxnear.le (div_nonneg hpamount.worth_nonneg (by norm_num)))

/-- A number of which some is left after rounding down hides the errors near zero. -/
theorem le_of_floor {ε τ x s : ℚ} {k : Int} (hε : 0 ≤ ε) (hε' : ε ≤ 1 / 2 ^ 10)
    (hτ : τ ≤ ε ^ 2) (hs : 0 ≤ s) (hx : x ≤ s * (1 + ε) ^ 3 + 5 * τ) (hkx : k ≤ x) :
    k ≤ s * (1 + 8 * ε) := by
  have hright : 0 ≤ s * (1 + 8 * ε) := mul_nonneg hs (by linarith)
  by_cases hzero : k ≤ 0
  · exact (Int.cast_nonpos.mpr hzero).trans hright
  · have hone : (1 : ℚ) ≤ x := by
      have hk' : (1 : ℚ) ≤ k := by exact_mod_cast Int.not_le.mp hzero
      linarith
    have hsquare : ε ^ 2 ≤ 1 / 2 ^ 20 := by
      calc
        ε ^ 2 ≤ (1 / 2 ^ 10) ^ 2 := by gcongr
        _ = 1 / 2 ^ 20 := by norm_num
    have hscaled : x * (1 - 5 * ε ^ 2) ≤ s * (1 + ε) ^ 3 := by
      nlinarith
    have hcube : (1 + ε) ^ 3 ≤ (1 + 8 * ε) * (1 - 5 * ε ^ 2) := by
      nlinarith
    refine hkx.trans (le_of_mul_le_mul_right ?_ (by linarith : 0 < 1 - 5 * ε ^ 2))
    calc
      x * (1 - 5 * ε ^ 2) ≤ s * (1 + ε) ^ 3 := hscaled
      _ ≤ s * ((1 + 8 * ε) * (1 - 5 * ε ^ 2)) := by gcongr
      _ = s * (1 + 8 * ε) * (1 - 5 * ε ^ 2) := by ring

theorem bounds_of_floor {total : Int} {p x : Float} {k : Int} (hnonneg : 0 ≤ total)
    (hsmall : (total : ℚ) ≤ moderate) (hp : IsPercentage p) (h : share total (.real p) = .ok x)
    (hk : Reckoning.truncate x = .ok k) :
    0 ≤ k ∧ (k : ℚ) ≤ total * value p / 100 * (1 + 8 * relativeError) := by
  obtain ⟨-, hamount, hle⟩ := bounds_of_share hnonneg hsmall hp h
  refine ⟨nonneg_of_toInt (fun den => Nat.zero_div den) hamount hk, ?_⟩
  have hshare : (0 : ℚ) ≤ total * value p / 100 :=
    div_nonneg (mul_nonneg (Int.cast_nonneg hnonneg) hp.isAmount.worth_nonneg) (by norm_num)
  exact le_of_floor relativeError_pos.le relativeError_le leastPositive_le hshare hle
    (le_value_of_truncate hamount hk)

/-- A percentage, and its share of a total rounded down. -/
def IsFloor (total : Int) (p : Float) (k : Int) : Prop :=
  ∃ x, share total (.real p) = .ok x ∧ Reckoning.truncate x = .ok k

theorem sum_floors_le {total : Int} {percents : List Float} {floors : List Int}
    (hnonneg : 0 ≤ total) (hsmall : (total : ℚ) ≤ moderate)
    (hpercents : ∀ p ∈ percents, IsPercentage p)
    (h : List.Forall₂ (IsFloor total) percents floors) :
    (∀ k ∈ floors, 0 ≤ k) ∧ (floors.sum : ℚ) ≤
      total * (percents.map value).sum / 100 * (1 + 8 * relativeError) := by
  induction h with
  | nil => simp
  | @cons p k percents floors hfloor hrest ih =>
      obtain ⟨x, hx, hk⟩ := hfloor
      obtain ⟨hp, hpercents⟩ := List.forall_mem_cons.mp hpercents
      obtain ⟨hkpos, hkle⟩ := bounds_of_floor hnonneg hsmall hp hx hk
      obtain ⟨hpos, hle⟩ := ih hpercents
      refine ⟨List.forall_mem_cons.mpr ⟨hkpos, hpos⟩, ?_⟩
      rw [List.sum_cons, List.map_cons, List.sum_cons, Int.cast_add]
      linarith

theorem sum_handOut_le (remainder : Int) (parts : List Part) :
    ((handOut remainder parts).map Part.limit).sum ≤ (parts.map Part.limit).sum +
      max 0 remainder := by
  induction parts generalizing remainder with
  | nil => simp [handOut]
  | cons p ps ih =>
      rw [handOut]
      split
      · exact le_add_of_nonneg_right (le_max_left _ _)
      · split
        · have hrest := ih (remainder - 1)
          simp only [List.map_cons, List.sum_cons]
          omega
        · have hrest := ih remainder
          simp only [List.map_cons, List.sum_cons]
          omega

theorem nonneg_handOut {remainder : Int} {parts : List Part} (h : ∀ p ∈ parts, 0 ≤ p.limit) :
    ∀ p ∈ handOut remainder parts, 0 ≤ p.limit := by
  induction parts generalizing remainder with
  | nil => exact h
  | cons p ps ih =>
      obtain ⟨hp, hps⟩ := List.forall_mem_cons.mp h
      rw [handOut]
      split
      · exact h
      · split
        · exact List.forall_mem_cons.mpr ⟨Int.add_nonneg hp (by decide), ih hps⟩
        · exact List.forall_mem_cons.mpr ⟨hp, ih hps⟩

section Derived

variable {𝕜 : Type}

theorem pairUp_of_none {given : List (Option Int)} {percents : List (Quantity 𝕜)}
    (hlength : given.length = percents.length) (hnone : ∀ g ∈ given, g = none) :
    pairUp given percents = .ok (percents.map .percent) := by
  induction given generalizing percents with
  | nil =>
      rw [List.eq_nil_of_length_eq_zero hlength.symm]
      rfl
  | cons g given ih =>
      obtain ⟨rfl, hrest⟩ := List.forall_mem_cons.mp hnone
      cases percents with
      | nil => cases hlength
      | cons percent percents =>
          rw [pairUp, ih (Nat.succ.inj hlength) hrest]
          rfl

theorem derived_map_percent (percents : List (Quantity 𝕜)) :
    derived (percents.map .percent) = percents := by
  rw [derived, List.filterMap_map]
  exact List.filterMap_some

end Derived

theorem limit_of_part {total : Int} {p : Float} {part : Part} {k : Int}
    (hpart : Part.of total (.percent (.real p)) = .ok part) (hfloor : IsFloor total p k) :
    part.limit = k := by
  obtain ⟨x, hx, hk⟩ := hfloor
  rw [Part.of, hx] at hpart
  change (Reckoning.truncate x >>= fun k => .ok (Part.mk k _)) = .ok part at hpart
  rw [hk] at hpart
  obtain rfl := Except.ok.inj hpart
  rfl

/-- Limits that are all derived come to no more than the total, unless the shares rounded down
already do. -/
theorem sum_limits_le {total : Int} {percents : List Float} {given : List (Option Int)}
    {result : List Int} (hlength : given.length = percents.length) (hnone : ∀ g ∈ given, g = none)
    (h : limits total (percents.map Quantity.real) given = .ok result) :
    ∃ floors, List.Forall₂ (IsFloor total) percents floors ∧ result.sum ≤ max total floors.sum ∧
      ((∀ k ∈ floors, 0 ≤ k) → ∀ n ∈ result, 0 ≤ n) := by
  obtain ⟨kinds, hkinds, h⟩ := Outcome.exists_of_bind h
  rw [pairUp_of_none (by rwa [List.length_map]) hnone] at hkinds
  obtain rfl := Except.ok.inj hkinds
  obtain ⟨shares, hshares, h⟩ := Outcome.exists_of_bind h
  obtain ⟨floors, hfloors, h⟩ := Outcome.exists_of_bind h
  obtain ⟨sum, -, h⟩ := Outcome.exists_of_bind h
  obtain ⟨parts, hparts, h⟩ := Outcome.exists_of_bind h
  obtain rfl := Except.ok.inj h
  rw [derived_map_percent] at hshares
  have hshares := List.forall₂_map_left_iff.mp (forall₂_of_mapM (eq_ok_of_mapError hshares))
  have hfloors : List.Forall₂ (IsFloor total) percents floors :=
    forall₂_trans hshares (forall₂_of_mapM (eq_ok_of_mapError hfloors))
  have hparts := List.forall₂_map_left_iff.mp
    (List.forall₂_map_left_iff.mp (forall₂_of_mapM (eq_ok_of_mapError hparts)))
  have hlimits : parts.map Part.limit = floors := by
    rw [← List.forall₂_eq_eq_eq, List.forall₂_map_left_iff]
    refine (forall₂_trans hparts.flip hfloors).imp ?_
    rintro part k ⟨p, hpart, hfloor⟩
    exact limit_of_part hpart hfloor
  refine ⟨floors, hfloors, ?_, ?_⟩
  · have hsum := sum_handOut_le (min total sum - floors.foldr (· + ·) 0) parts
    rw [hlimits] at hsum
    refine hsum.trans ?_
    rw [← List.sum_eq_foldr]
    omega
  · intro hnonneg
    have hparts' : ∀ p ∈ parts, 0 ≤ p.limit := by
      intro p hp
      exact hnonneg _ (hlimits ▸ List.mem_map_of_mem hp)
    rw [List.forall_mem_map]
    exact nonneg_handOut hparts'

end Shares

namespace Options

open Double

theorem map_of_specOf {entries : List (Kind × Options)} {percents : List Float}
    {limits : List (Option Int)} {specs : List (Spec Float)}
    (h : (entries.zip (percents.zip limits)).mapM specOf = .ok specs)
    (hpercents : percents.length = entries.length) (hlimits : limits.length = entries.length) :
    specs.map Spec.percent = percents ∧ specs.map Spec.maxCount = limits := by
  have hrows : (entries.zip (percents.zip limits)).map Prod.snd = percents.zip limits :=
    List.map_snd_zip (by rw [List.length_zip, hpercents, hlimits, min_self])
  have hspecs : List.Forall₂ (fun row s => s.percent = row.2.1 ∧ s.maxCount = row.2.2)
      (entries.zip (percents.zip limits)) specs := by
    refine (forall₂_of_mapM h).imp fun row s hs => ?_
    obtain ⟨curve, -, hs⟩ := Outcome.exists_of_bind hs
    obtain rfl := Except.ok.inj hs
    exact ⟨rfl, rfl⟩
  constructor
  · have hfirst : (percents.zip limits).map Prod.fst = percents :=
      List.map_fst_zip (by rw [hpercents, hlimits])
    rw [← hfirst, ← hrows, List.map_map, ← List.forall₂_eq_eq_eq, List.forall₂_map_left_iff,
      List.forall₂_map_right_iff]
    exact (hspecs.imp fun row s hs => hs.1).flip
  · have hsecond : (percents.zip limits).map Prod.snd = limits :=
      List.map_snd_zip (by rw [hpercents, hlimits])
    rw [← hsecond, ← hrows, List.map_map, ← List.forall₂_eq_eq_eq, List.forall₂_map_left_iff,
      List.forall₂_map_right_iff]
    exact (hspecs.imp fun row s hs => hs.2).flip

/-- The entries give no limits. -/
def HasNoLimits (options : Options) : Prop :=
  ∀ entry ∈ options.entries, (settingsOf entry.2).get? "max_count" = none

theorem givenLimits_of_hasNoLimits {options : Options} {entries : List (Kind × Options)}
    {given : List (Option Int)} (hnone : options.HasNoLimits)
    (hentries : options.entries.mapM operation = .ok entries)
    (hgiven : givenLimits entries = .ok given) :
    ∀ g ∈ given, g = none := by
  intro g hg
  obtain ⟨row, hrow, hread⟩ := Outcome.exists_of_mapM hgiven g hg
  obtain ⟨entry, hentry, hoperation⟩ := Outcome.exists_of_mapM hentries row hrow
  apply eq_none_of_readIf hread
  rw [(of_operation hoperation).2.2]
  exact hnone entry hentry

theorem sum_maxCounts_le {options : Options} {total : Int} {specs : List (Spec Float)}
    (h : options.operations (some total) = .ok specs) (hnone : options.HasNoLimits)
    (hnonneg : 0 ≤ total) (hsmall : total < 2 ^ 48)
    (hpercents : 2 * total * (specs.map fun s => value s.percent).sum ≤
      100 * (2 * (total : ℚ) + 1)) :
    ∃ limits : List Int, specs.map Spec.maxCount = limits.map some ∧ (∀ n ∈ limits, 0 ≤ n) ∧
      limits.sum ≤ total := by
  obtain ⟨entries, percents, given, limits, hentries, hpercent, hgiven, hlimits, hspecs⟩ :=
    exists_of_operations h
  have hpercentages := isPercentage_of_percents hpercent
  have hnone := givenLimits_of_hasNoLimits hnone hentries hgiven
  have hlength := (forall₂_of_mapM hgiven).length_eq
  have hlength' := (forall₂_percents hpercent).length_eq
  have hlength'' := (forall₂_maxCounts hlimits).length_eq
  obtain ⟨result, hresult, hlimits⟩ := Outcome.exists_of_bind hlimits
  obtain rfl := Except.ok.inj hlimits
  obtain ⟨hpercent, hmaxCount⟩ := map_of_specOf hspecs hlength'.symm (by omega)
  obtain ⟨floors, hfloors, hsum, hresult⟩ := Shares.sum_limits_le (by omega) hnone hresult
  have hless : (total : ℚ) + 1 ≤ 2 ^ 48 := by exact_mod_cast hsmall
  have htotal : (total : ℚ) ≤ moderate := by
    have hmoderate := two_pow_le_moderate (k := 48) (by decide)
    linarith
  obtain ⟨hpos, hle⟩ := Shares.sum_floors_le hnonneg htotal hpercentages hfloors
  refine ⟨result, hmaxCount, hresult hpos, hsum.trans (max_le le_rfl ?_)⟩
  rw [← hpercent, List.map_map] at hle
  -- The shares rounded down add up to an integer, so it is enough that they exceed the total by
  -- less than one.
  apply Int.lt_add_one_iff.mp
  have hshares : total * (specs.map (value ∘ Spec.percent)).sum / 100 ≤ (total : ℚ) + 1 / 2 := by
    change 2 * (total : ℚ) * (specs.map (value ∘ Spec.percent)).sum ≤ _ at hpercents
    linarith
  have herror : 8 * relativeError * 2 ^ 48 = 1 / 2 := by
    rw [relativeError, zpow_neg]
    norm_num
  have hfactor : 0 ≤ 1 + 8 * relativeError := by
    have hpositive := relativeError_pos
    linarith
  have hscaled := mul_le_mul_of_nonneg_right hshares hfactor
  have hrounding : 8 * relativeError * (total + 1) ≤ 8 * relativeError * 2 ^ 48 := by
    have hpositive := relativeError_pos
    gcongr
  have hcast : (floors.sum : ℚ) < ((total + 1 : Int) : ℚ) := by
    have hpositive := relativeError_pos
    rw [Int.cast_add, Int.cast_one]
    linarith
  exact Int.cast_lt.mp hcast

theorem sum_toNat {limits : List Int} (h : ∀ n ∈ limits, 0 ≤ n) :
    ((limits.map Int.toNat).sum : Int) = limits.sum := by
  induction limits with
  | nil => rfl
  | cons n limits ih =>
      obtain ⟨hn, hrest⟩ := List.forall_mem_cons.mp h
      rw [List.map_cons, List.sum_cons, List.sum_cons, Int.natCast_add, ih hrest,
        Int.toNat_of_nonneg hn]

theorem le_totalOps_of_percents {options : Options} {c : Settings Float} {total : Int}
    (h : options.settings = .ok c) (hops : c.totalOps = some total) (hnone : options.HasNoLimits)
    (hsmall : total < 2 ^ 48)
    (hpercents : 2 * total * (c.operations.map fun s => value s.percent).sum ≤
      100 * (2 * (total : ℚ) + 1)) :
    (∃ limits : List Int, c.operations.map Spec.maxCount = limits.map some ∧ limits.sum ≤ total) ∧
      ∀ {ρ : Type} [RandomSource ρ] (calls : List (Selector.Call Float ρ)),
        ((Selector.selectAll c.operations calls .empty).1.countP Selector.givesAny : Int) ≤
        total := by
  have hspecs := (isReadAs_of_settings h).operations
  rw [hops] at hspecs
  have hnonneg := (isValid_of_settings h).totalOps total hops
  obtain ⟨limits, hmaxCounts, hpos, hsum⟩ :=
    sum_maxCounts_le hspecs hnone hnonneg hsmall hpercents
  refine ⟨⟨limits, hmaxCounts, hsum⟩, fun calls => ?_⟩
  have hlimits : ∀ s ∈ c.operations, s.maxCount.isSome := by
    intro s hs
    obtain ⟨n, -, hn⟩ := List.mem_map.mp (hmaxCounts ▸ List.mem_map_of_mem hs)
    rw [← hn]
    rfl
  have hcount := Selector.countP_selectAll_le hlimits calls .empty
  have hleft : Selector.left c.operations .empty =
      ((c.operations.map Spec.maxCount).map fun limit => (limit.getD 0).toNat).sum := by
    rw [List.map_map]
    rfl
  rw [hleft, hmaxCounts, List.map_map] at hcount
  exact (Int.ofNat_le.mpr hcount).trans ((sum_toNat hpos).le.trans hsum)

/-- The percentages that the entries state. -/
def statedPercents (options : Options) : List Float :=
  options.entries.filterMap fun entry =>
    ((settingsOf entry.2).get? "percent").bind fun v => v.toReal.toOption

theorem statedPercents_eq {options : Options} {entries : List (Kind × Options)}
    {given : List (Option Float)} (hentries : options.entries.mapM operation = .ok entries)
    (hgiven : stated entries = .ok given) : options.statedPercents = given.filterMap id := by
  have hrows := forall₂_trans (forall₂_of_mapM hentries) (forall₂_of_mapM hgiven)
  have hrow : List.Forall₂ (fun entry g =>
      (((settingsOf entry.2).get? "percent").bind fun v => v.toReal.toOption) = g)
      options.entries given := by
    refine hrows.imp ?_
    rintro entry g ⟨⟨kind, settings⟩, hoperation, hread⟩
    obtain ⟨-, -, rfl⟩ := of_operation hoperation
    cases hv : (settingsOf entry.2).get? "percent" with
    | none =>
        rw [eq_none_of_readIf hread hv]
        rfl
    | some v =>
        obtain ⟨x, hx, rfl⟩ := exists_of_readIf hread v hv
        rw [Option.bind_some, (Config.of_number hx).1]
        rfl
  have hmap := List.forall₂_map_left_iff.mpr hrow
  rw [List.forall₂_eq_eq_eq] at hmap
  rw [statedPercents, ← hmap, List.filterMap_map]
  rfl

theorem sum_percents_of_operations {options : Options} {totalOps : Option Int}
    {specs : List (Spec Float)} (h : options.operations totalOps = .ok specs)
    (hpercents : (options.statedPercents.map value).sum ≤ 100)
    (hlength : options.entries.length ≤ 2 ^ 50) :
    (specs.map fun s => value s.percent).sum ≤
      100 + relativeError * (101 * options.entries.length + 700) := by
  obtain ⟨entries, percents, given, limits, hentries, hpercent, hgiven, hlimits, hspecs⟩ :=
    exists_of_operations h
  have hrows := (forall₂_of_mapM hentries).length_eq
  have hlength' := (forall₂_of_mapM hgiven).length_eq
  have hlength'' := (forall₂_percents hpercent).length_eq
  have hlength''' := (forall₂_maxCounts hlimits).length_eq
  obtain ⟨rfl, -⟩ := map_of_specOf hspecs hlength''.symm (by omega)
  obtain ⟨stated, hstated, -⟩ := Outcome.exists_of_bind hpercent
  rw [statedPercents_eq hentries hstated] at hpercents
  have hsum := sum_percents_le hstated hpercent hpercents (by omega)
  rw [List.map_map, ← hrows] at hsum
  exact hsum

/-- No more operations are selected than the total says, where the limits are all derived from it,
the stated percentages come to no more than a hundred, and it is not too large for the number of
entries. -/
theorem le_totalOps_of_settings {options : Options} {c : Settings Float} {total : Int}
    (h : options.settings = .ok c) (hops : c.totalOps = some total) (hnone : options.HasNoLimits)
    (hpercents : (options.statedPercents.map value).sum ≤ 100)
    (hsmall : total * (options.entries.length + 8) ≤ 2 ^ 50) :
    (∃ limits : List Int, c.operations.map Spec.maxCount = limits.map some ∧ limits.sum ≤ total) ∧
      ∀ {ρ : Type} [RandomSource ρ] (calls : List (Selector.Call Float ρ)),
        ((Selector.selectAll c.operations calls .empty).1.countP Selector.givesAny : Int) ≤
        total := by
  have hspecs := (isReadAs_of_settings h).operations
  have hnonneg := (isValid_of_settings h).totalOps total hops
  have hentries : (0 : Int) ≤ options.entries.length := Int.natCast_nonneg _
  apply le_totalOps_of_percents h hops hnone
  · have hroom : total * 8 ≤ total * (options.entries.length + 8) :=
      Int.mul_le_mul_of_nonneg_left (by omega) hnonneg
    omega
  · -- A total of zero does not bound the number of entries, and needs no bound on it.
    by_cases hzero : total = 0
    · rw [hzero]
      simp
    · have hlength : options.entries.length ≤ 2 ^ 50 := by
        have hroom : 1 * (options.entries.length + 8 : Int) ≤
            total * (options.entries.length + 8) :=
          Int.mul_le_mul_of_nonneg_right (by omega) (by omega)
        omega
      rw [hops] at hspecs
      have hsum := sum_percents_of_operations hspecs hpercents hlength
      have htotal : (0 : ℚ) ≤ total := Int.cast_nonneg hnonneg
      have hroom : total * ((options.entries.length : ℚ) + 8) ≤ 2 ^ 50 := by exact_mod_cast hsmall
      have hpositive := relativeError_pos
      have herror : relativeError * 2 ^ 50 = 1 / 4 := by
        rw [relativeError, zpow_neg]
        norm_num
      calc
        2 * total * (c.operations.map fun s => value s.percent).sum ≤
            2 * total * (100 + relativeError * (101 * options.entries.length + 700)) := by gcongr
        _ ≤ 2 * total * (100 + relativeError * (101 * (options.entries.length + 8))) := by
            gcongr
            linarith
        _ = 200 * total + 202 *
          (relativeError * (total * (options.entries.length + 8))) := by ring
        _ ≤ 200 * total + 202 * (relativeError * 2 ^ 50) := by gcongr
        _ ≤ 100 * (2 * total + 1) := by
            rw [herror]
            linarith

/-- An operation is asked for, and two kinds have all of it each. -/
def overfull : Options :=
  [(.text "ops", .int 1),
    (.text "operations", .map [(.text "create", .int 100), (.text "read", .int 100)])]

/-- Two operations are selected. -/
theorem totalOps_lt_overfull : ∃ c, overfull.settings = .ok c ∧ c.totalOps = some 1 ∧
    overfull.HasNoLimits ∧ c.operations.map Spec.maxCount = [some 1, some 1] ∧
    ∃ calls : List (Selector.Call Float Zeros),
      (Selector.selectAll c.operations calls .empty).1.countP Selector.givesAny = 2 := by
  have hread :
      (overfull.settings.toOption.map fun c => (c.totalOps, c.operations.map Spec.maxCount,
      (Selector.selectAll c.operations Selector.moments .empty).1.countP Selector.givesAny)) =
      some (some 1, [some 1, some 1], 2) := by
    decide +kernel
  obtain ⟨c, hc, hfacts⟩ := Option.map_eq_some_iff.mp hread
  obtain ⟨hops, hfacts⟩ := Prod.mk.inj hfacts
  obtain ⟨hlimits, hcount⟩ := Prod.mk.inj hfacts
  refine ⟨c, Outcome.eq_ok_of_toOption hc, hops, ?_, hlimits, Selector.moments, hcount⟩
  have hentries : overfull.entries = [(.text "create", .int 100), (.text "read", .int 100)] := rfl
  rw [HasNoLimits, hentries]
  simp only [List.forall_mem_cons]
  exact ⟨rfl, rfl, nofun⟩

/-- Ten operations, of which one kind has a half and two share the other. -/
def shared : Options :=
  [(.text "ops", .int 10),
    (.text "operations",
      .map [(.text "create", .int 50), (.text "read", .null), (.text "ls", .null)])]

theorem le_totalOps_shared : ∃ c, shared.settings = .ok c ∧ c.totalOps = some 10 ∧
    c.operations.map Spec.maxCount = [some 6, some 2, some 2] ∧
    ∀ calls : List (Selector.Call Float Zeros),
      ((Selector.selectAll c.operations calls .empty).1.countP Selector.givesAny : Int) ≤ 10 := by
  have hread :
      (shared.settings.toOption.map fun c => (c.totalOps, c.operations.map Spec.maxCount)) =
      some (some 10, [some 6, some 2, some 2]) := by
    decide +kernel
  obtain ⟨c, hc, hfacts⟩ := Option.map_eq_some_iff.mp hread
  obtain ⟨hops, hlimits⟩ := Prod.mk.inj hfacts
  have hentries : shared.entries =
      [(.text "create", .int 50), (.text "read", .null), (.text "ls", .null)] := rfl
  have hnone : shared.HasNoLimits := by
    rw [HasNoLimits, hentries]
    simp only [List.forall_mem_cons]
    exact ⟨rfl, rfl, rfl, nofun⟩
  have hhalf : value 50.0 ≤ (50 : Int) :=
    value_le_of_exceeds (by decide +kernel) (by decide +kernel)
  have hstated : shared.statedPercents = [50.0] := by decide +kernel
  have hc := Outcome.eq_ok_of_toOption hc
  obtain ⟨-, hselected⟩ := le_totalOps_of_settings hc hops hnone
    (by
      rw [hstated, List.map_singleton, List.sum_singleton]
      push_cast at hhalf
      linarith)
    (by
      rw [hentries]
      decide)
  exact ⟨c, hc, hops, hlimits, hselected⟩

end Options

end StorageLoad
