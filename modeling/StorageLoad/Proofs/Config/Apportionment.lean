import Mathlib.Algebra.BigOperators.Group.List.Basic
import StorageLoad.Proofs.Config.Entries
import StorageLoad.Proofs.Exact

/-!
Splitting a total between kinds, reckoned in exact rationals.  A kind without a given limit gets
its share rounded down, and what is left of the rounded sum of the shares is handed out to the
last operation, one each to the first kinds that have a share at all (`limits_exact`).
-/

namespace StorageLoad.Shares

open Double

section HandOut

variable {p : Part} {ps : List Part} {remainder : Int}

theorem handOut_of_nonpos (h : remainder ≤ 0) (ps : List Part) : handOut remainder ps = ps := by
  cases ps with
  | nil => rfl
  | cons p ps => rw [handOut, if_pos h]

theorem handOut_of_grows (h : 0 < remainder) (hgrows : p.grows) :
    handOut remainder (p :: ps) = { p with limit := p.limit + 1 } ::
      handOut (remainder - 1) ps := by
  rw [handOut, if_neg (Int.not_le.mpr h), if_pos hgrows]

theorem handOut_of_not_grows (hgrows : ¬ p.grows) :
    handOut remainder (p :: ps) = p :: handOut remainder ps := by
  rcases le_or_gt remainder 0 with hnone | hsome
  · rw [handOut_of_nonpos hnone, handOut_of_nonpos hnone]
  · rw [handOut, if_neg (Int.not_le.mpr hsome), if_neg hgrows]

theorem getElem?_handOut (remainder : Int) (parts : List Part) (i : Nat) :
    (handOut remainder parts)[i]? = parts[i]?.map fun p =>
      if p.grows ∧
        ((parts.take i).countP Part.grows : Int) < remainder then { p with limit := p.limit + 1 }
      else p := by
  induction parts generalizing remainder i with
  | nil => rfl
  | cons p ps ih =>
      rcases le_or_gt remainder 0 with hnone | hsome
      · have hnot : ¬ (((p :: ps).take i).countP Part.grows : Int) < remainder := by omega
        simp [handOut_of_nonpos hnone, hnot]
      · by_cases hgrows : p.grows
        · rw [handOut_of_grows hsome hgrows]
          cases i with
          | zero => simp [hsome, hgrows]
          | succ i =>
              rw [List.getElem?_cons_succ, List.getElem?_cons_succ, ih, List.take_succ_cons,
                List.countP_cons_of_pos hgrows]
              simp only [Nat.cast_add, Nat.cast_one, lt_sub_iff_add_lt]
        · rw [handOut_of_not_grows hgrows]
          cases i with
          | zero => simp [hgrows]
          | succ i =>
              rw [List.getElem?_cons_succ, List.getElem?_cons_succ, ih, List.take_succ_cons,
                List.countP_cons_of_neg hgrows]

end HandOut

section Rows

/-- A kind's limit, if one is given, and its percentage. -/
abbrev Row := Option Int × Quantity ℚ

/-- The share of a percentage in a total. -/
def shareOf (total : Int) (p : Quantity ℚ) : ℚ :=
  total * p.value / 100

/-- Whether a kind has no given limit and its percentage is not zero. -/
def Row.isOpen (row : Row) : Bool :=
  row.1.isNone && decide (0 < row.2.value)

/-- What a list holds at the places without a given limit. -/
def atMissing {α : Type} (given : List (Option Int)) (as : List α) : List α :=
  ((given.zip as).filter (·.1.isNone)).map (·.2)

variable {total : Int} {p : Quantity ℚ} {rows : List Row} {percents : List (Quantity ℚ)}
  {given : List (Option Int)} {remainder : Int}

theorem atMissing_cons_none {α : Type} (given : List (Option Int)) (a : α) (as : List α) :
    atMissing (none :: given) (a :: as) = a :: atMissing given as :=
  rfl

theorem atMissing_cons_some {α : Type} (n : Int) (given : List (Option Int)) (a : α)
    (as : List α) :
    atMissing (some n :: given) (a :: as) = atMissing given as :=
  rfl

theorem share_eq_shareOf (total : Int) (p : Quantity ℚ) :
    share total p = .ok (shareOf total p) := by
  cases p with
  | whole n =>
      change Except.ok (((total * n : Int) : ℚ) / 100.0) = _
      rw [Exact.hundred_eq, Int.cast_mul]
      rfl
  | real x =>
      change Except.ok ((total : ℚ) * x / 100.0) = _
      rw [Exact.hundred_eq]
      rfl

theorem shareOf_nonneg (htotal : 0 ≤ total) (hp : 0 ≤ p.value) : 0 ≤ shareOf total p := by
  have htotal' : (0 : ℚ) ≤ total := Int.cast_nonneg htotal
  rw [shareOf]
  positivity

/-- What a row is given. -/
def Given.ofRow : Row → Given ℚ
  | (some n, _) => .limit n
  | (none, p) => .percent p

theorem pairUp_eq (hlength : given.length = percents.length) :
    pairUp given percents = .ok ((given.zip percents).map Given.ofRow) := by
  induction given generalizing percents with
  | nil => rfl
  | cons g given ih =>
      cases percents with
      | nil => cases hlength
      | cons p percents =>
          have hrest := ih (Nat.succ.inj hlength)
          cases g with
          | none =>
              rw [pairUp, hrest]
              rfl
          | some n =>
              rw [pairUp, List.tail_cons, hrest]
              rfl

/-- The limit of a row before anything is handed out. -/
def Part.ofRow (total : Int) : Row → Part
  | (some n, _) => ⟨n, false⟩
  | (none, p) => ⟨⌊shareOf total p⌋, p.isPositive⟩

theorem grows_ofRow (total : Int) (row : Row) : (Part.ofRow total row).grows = row.isOpen := by
  obtain ⟨g, p⟩ := row
  cases g with
  | none =>
      rw [Row.isOpen, Bool.eq_iff_iff]
      simp [Part.ofRow, Quantity.isPositive_iff]
  | some n => rfl

theorem Part.of_ofRow {row : Row} (htotal : 0 ≤ total) (hrow : 0 ≤ row.2.value) :
    Part.of total (Given.ofRow row) = .ok (Part.ofRow total row) := by
  obtain ⟨g, p⟩ := row
  cases g with
  | none =>
      rw [Given.ofRow, Part.of, share_eq_shareOf, ok_bind,
        Exact.truncate_eq (shareOf_nonneg htotal hrow)]
      rfl
  | some n => rfl

theorem derived_map_ofRow (rows : List Row) :
    derived (rows.map Given.ofRow) = (rows.filter (·.1.isNone)).map (·.2) := by
  induction rows with
  | nil => rfl
  | cons row rows ih =>
      obtain ⟨g, p⟩ := row
      cases g with
      | none => exact congrArg (p :: ·) ih
      | some n => exact ih

theorem limits_eq (htotal : 0 ≤ total) (hlength : given.length = percents.length)
    (hpercents : ∀ p ∈ percents, 0 ≤ p.value) :
    ∃ n : Nat, IsNearest ((atMissing given percents).map (shareOf total)).sum n ∧
      limits total percents given = .ok
        ((handOut (min total n - ((atMissing given percents).map (⌊shareOf total ·⌋)).sum)
          ((given.zip percents).map (Part.ofRow total))).map Part.limit) := by
  have hrows : ∀ row ∈ given.zip percents, 0 ≤ row.2.value := fun row hrow =>
    hpercents row.2 (List.of_mem_zip hrow).2
  have hmissing : ∀ p ∈ atMissing given percents, 0 ≤ shareOf total p := by
    intro p hp
    obtain ⟨row, hrow, rfl⟩ := List.mem_map.mp hp
    exact shareOf_nonneg htotal (hrows row (List.mem_of_mem_filter hrow))
  have hsum : 0 ≤ ((atMissing given percents).map (shareOf total)).sum :=
    List.sum_nonneg (List.forall_mem_map.mpr hmissing)
  obtain ⟨n, hround, hnearest⟩ := Exact.exists_round hsum
  refine ⟨n, hnearest, ?_⟩
  have hshares : (atMissing given percents).mapM (share total) =
      .ok ((atMissing given percents).map (shareOf total)) :=
    mapM_eq_ok fun p _ => share_eq_shareOf total p
  have hfloors : ((atMissing given percents).map (shareOf total)).mapM Reckoning.truncate =
      .ok (((atMissing given percents).map (shareOf total)).map (⌊·⌋)) :=
    mapM_eq_ok (List.forall_mem_map.mpr fun p hp => Exact.truncate_eq (hmissing p hp))
  have hparts : ((given.zip percents).map Given.ofRow).mapM (Part.of total) =
      .ok ((given.zip percents).map (Part.ofRow total)) := by
    rw [List.mapM_map]
    exact mapM_eq_ok fun row hrow => Part.of_ofRow htotal (hrows row hrow)
  rw [limits, pairUp_eq hlength, ok_bind, derived_map_ofRow, ← atMissing, hshares, lift_ok,
    ok_bind, hfloors,
    lift_ok, ok_bind, Exact.zero_eq, ← List.sum_eq_foldl, hround, lift_ok, ok_bind, hparts,
    lift_ok, ok_bind, ← List.sum_eq_foldr, List.map_map]
  rfl

theorem sum_shares_le (total : Int) {ps : List (Quantity ℚ)} (hps : ∀ p ∈ ps, 0 ≤ p.value) :
    (ps.map (shareOf total)).sum ≤
    ((ps.map (⌊shareOf total ·⌋)).sum + ps.countP (0 < ·.value) : Int) := by
  induction ps with
  | nil => simp
  | cons p ps ih =>
      obtain ⟨hp, hps⟩ := List.forall_mem_cons.mp hps
      have hrest := ih hps
      rw [List.map_cons, List.map_cons, List.sum_cons, List.sum_cons, List.countP_cons]
      have hfirst : shareOf total p ≤
          (⌊shareOf total p⌋ + (if 0 < p.value then 1 else 0) : Int) := by
        split
        · push_cast
          exact (Int.lt_floor_add_one _).le
        · rename_i hzero
          have hvalue : p.value = 0 := le_antisymm (not_lt.mp hzero) hp
          have hshare : shareOf total p = 0 := by rw [shareOf, hvalue, mul_zero, zero_div]
          rw [hshare]
          simp
      push_cast at hfirst hrest ⊢
      simp only [decide_eq_true_eq]
      linarith

theorem le_of_isNearest {x : ℚ} {n : Nat} {bound : Int} (h : IsNearest x n) (hx : x ≤ bound) :
    (n : Int) ≤ bound := by
  have hn := h.ge
  have hlt : ((n : Int) : ℚ) < (bound + 1 : Int) := by
    push_cast
    linarith
  exact Int.lt_add_one_iff.mp (Int.cast_lt.mp hlt)

theorem sum_atMissing_handOut (total remainder : Int) (rows : List Row) :
    (atMissing (rows.map (·.1))
      ((handOut remainder (rows.map (Part.ofRow total))).map Part.limit)).sum =
      ((atMissing (rows.map (·.1)) (rows.map (·.2))).map (⌊shareOf total ·⌋)).sum +
        min (max 0 remainder) (rows.countP Row.isOpen) := by
  induction rows generalizing remainder with
  | nil => simp [atMissing, handOut]
  | cons row rows ih =>
      obtain ⟨g, p⟩ := row
      simp only [List.map_cons]
      cases g with
      | some n =>
          have hgrows : ¬ (Part.ofRow total (some n, p)).grows := Bool.false_ne_true
          have hopen : ¬ Row.isOpen (some n, p) := Bool.false_ne_true
          rw [handOut_of_not_grows hgrows, List.map_cons, atMissing_cons_some,
            atMissing_cons_some, List.countP_cons_of_neg hopen]
          exact ih remainder
      | none =>
          by_cases hpos : 0 < p.value
          · have hgrows : (Part.ofRow total (none, p)).grows := Quantity.isPositive_iff.mpr hpos
            have hopen : Row.isOpen (none, p) := decide_eq_true hpos
            rw [List.countP_cons_of_pos hopen]
            rcases le_or_gt remainder 0 with hnone | hsome
            · have hrest := ih remainder
              rw [handOut_of_nonpos hnone] at hrest ⊢
              simp only [List.map_cons, atMissing_cons_none, List.sum_cons, Part.ofRow, hrest]
              omega
            · rw [handOut_of_grows hsome hgrows]
              simp only [List.map_cons, atMissing_cons_none, List.sum_cons, Part.ofRow, ih]
              omega
          · have hgrows : ¬ (Part.ofRow total (none, p)).grows :=
              mt Quantity.isPositive_iff.mp hpos
            have hopen : ¬ Row.isOpen (none, p) := by simpa [Row.isOpen] using hpos
            rw [handOut_of_not_grows hgrows, List.countP_cons_of_neg hopen]
            simp only [List.map_cons, atMissing_cons_none, List.sum_cons, Part.ofRow, ih]
            omega

theorem atMissing_of_none {α : Type} {as : List α} (hlength : given.length = as.length)
    (hnone : ∀ g ∈ given, g = none) : atMissing given as = as := by
  have hall : (given.zip as).filter (·.1.isNone) = given.zip as := by
    rw [List.filter_eq_self]
    intro row hrow
    rw [hnone row.1 (List.of_mem_zip hrow).1]
    rfl
  rw [atMissing, hall, List.map_snd_zip hlength.ge]

theorem sum_shareOf (total : Int) (ps : List (Quantity ℚ)) :
    (ps.map (shareOf total)).sum = total * (ps.map Quantity.value).sum / 100 := by
  induction ps with
  | nil => simp
  | cons p ps ih =>
      rw [List.map_cons, List.sum_cons, List.map_cons, List.sum_cons, ih, shareOf]
      ring

theorem sum_floors_le_sum_shares (total : Int) (ps : List (Quantity ℚ)) :
    (((ps.map (⌊shareOf total ·⌋)).sum : Int) : ℚ) ≤ (ps.map (shareOf total)).sum := by
  induction ps with
  | nil => simp
  | cons p ps ih =>
      rw [List.map_cons, List.sum_cons, List.map_cons, List.sum_cons, Int.cast_add]
      exact add_le_add (Int.floor_le _) ih

end Rows

/-- A total is split between kinds: what each gets, and what all of them get that have no given
limit. -/
structure IsSplit (total : Int) (percents : List (Quantity ℚ)) (given : List (Option Int))
    (result : List Int) : Prop where
  length : result.length = given.length
  kept : ∀ (i : Nat) (n : Int), given[i]? = some (some n) → result[i]? = some n
  /-- The first so many kinds without a given limit whose percentage is not zero get one more than
  their share rounded down. -/
  handedOut : ∃ extra : Nat, ∀ (i : Nat) (p : Quantity ℚ), given[i]? = some none →
    percents[i]? = some p → result[i]? = some (⌊shareOf total p⌋ +
      if 0 < p.value ∧ ((given.zip percents).take i).countP Row.isOpen < extra then 1 else 0)
  sum : ∃ rounded : Nat, IsNearest ((atMissing given percents).map (shareOf total)).sum rounded ∧
    (atMissing given result).sum =
      max ((atMissing given percents).map (⌊shareOf total ·⌋)).sum (min total rounded)

variable {total : Int} {percents : List (Quantity ℚ)} {given : List (Option Int)}
  {result : List Int}

theorem getElem?_map_handOut (total remainder : Int) (rows : List Row) (i : Nat) :
    ((handOut remainder (rows.map (Part.ofRow total))).map Part.limit)[i]? =
      rows[i]?.map fun row =>
      (Part.ofRow total row).limit +
        if row.isOpen ∧ ((rows.take i).countP Row.isOpen : Int) < remainder then 1 else 0 := by
  have hgrows : Part.grows ∘ Part.ofRow total = Row.isOpen := funext (grows_ofRow total)
  rw [List.getElem?_map, getElem?_handOut, List.getElem?_map, ← List.map_take,
    List.countP_map, hgrows, Option.map_map, Option.map_map]
  congr 1
  funext row
  simp only [Function.comp_apply, grows_ofRow]
  split
  · rfl
  · exact (add_zero _).symm

theorem isSplit_handOut {rounded : Nat} (hlength : given.length = percents.length)
    (hpercents : ∀ p ∈ percents, 0 ≤ p.value)
    (hrounded : IsNearest ((atMissing given percents).map (shareOf total)).sum rounded) :
    IsSplit total percents given
      ((handOut (min total rounded - ((atMissing given percents).map (⌊shareOf total ·⌋)).sum)
        ((given.zip percents).map (Part.ofRow total))).map Part.limit) := by
  have hgiven : (given.zip percents).map (·.1) = given := List.map_fst_zip hlength.le
  have hpercents' : (given.zip percents).map (·.2) = percents := List.map_snd_zip hlength.ge
  have hrow : ∀ {i g p}, given[i]? = some g → percents[i]? = some p →
      (given.zip percents)[i]? = some (g, p) :=
        fun hg hp => List.getElem?_zip_eq_some.mpr ⟨hg, hp⟩
  refine ⟨?length, ?kept, ?handedOut, rounded, hrounded, ?sum⟩
  case length =>
    rw [List.length_map, ← forall₂_handOut.length_eq, List.length_map, List.length_zip,
      hlength, min_self]
  case kept =>
    intro i n hn
    have hi : i < percents.length := hlength ▸ (List.getElem?_eq_some_iff.mp hn).1
    rw [getElem?_map_handOut, hrow hn (List.getElem?_eq_getElem hi)]
    simp [Row.isOpen, Part.ofRow]
  case handedOut =>
    refine ⟨(min total rounded - ((atMissing given percents).map (⌊shareOf total ·⌋)).sum).toNat,
      ?_⟩
    intro i p hg hp
    rw [getElem?_map_handOut, hrow hg hp]
    simp [Row.isOpen, Part.ofRow, Int.lt_toNat]
  case sum =>
    have hsum := sum_atMissing_handOut total
      (min total rounded - ((atMissing given percents).map (⌊shareOf total ·⌋)).sum)
        (given.zip percents)
    rw [hgiven, hpercents'] at hsum
    rw [hsum]
    -- The remainder is no more than there are kinds to take it.
    have hmissing : ∀ p ∈ atMissing given percents, 0 ≤ p.value := by
      intro p hp
      obtain ⟨row, hrow, rfl⟩ := List.mem_map.mp hp
      exact hpercents row.2 (List.of_mem_zip (List.mem_of_mem_filter hrow)).2
    have hroom := le_of_isNearest hrounded (sum_shares_le total hmissing)
    have hcount : (atMissing given percents).countP (0 < ·.value) =
        (given.zip percents).countP Row.isOpen := by
      rw [atMissing, List.countP_map, List.countP_filter]
      exact List.countP_congr fun row _ => by simp [Row.isOpen, and_comm]
    rw [hcount] at hroom
    omega

theorem IsSplit.sum_eq_total (h : IsSplit total percents given result)
    (hlength : given.length = percents.length) (hnone : ∀ g ∈ given, g = none)
    (hpercents : (percents.map Quantity.value).sum = 100) : result.sum = total := by
  obtain ⟨n, hnearest, hsum⟩ := h.sum
  have hshares : (percents.map (shareOf total)).sum = total := by
    rw [sum_shareOf, hpercents, mul_div_cancel_right₀ _ (by norm_num)]
  rw [atMissing_of_none hlength hnone, hshares] at hnearest
  rw [atMissing_of_none hlength hnone, atMissing_of_none h.length.symm hnone] at hsum
  have hrounded : (n : Int) ≤ total := le_of_isNearest hnearest le_rfl
  have hrounded' : total ≤ n := by
    have hle := hnearest.le
    have hlt : (total : ℚ) < (n + 1 : Int) := by
      push_cast
      linarith
    exact Int.lt_add_one_iff.mp (Int.cast_lt.mp hlt)
  have hfloors : (percents.map (⌊shareOf total ·⌋)).sum ≤ total := by
    have hle := sum_floors_le_sum_shares total percents
    rw [hshares] at hle
    exact Int.cast_le.mp hle
  omega

/-- Splitting a total, reckoned without rounding.  It always succeeds and hands out the whole
remainder. -/
theorem limits_exact (htotal : 0 ≤ total) (hlength : given.length = percents.length)
    (hpercents : ∀ p ∈ percents, 0 ≤ p.value) :
    ∃ result, limits total percents given = .ok result ∧ IsSplit total percents given result ∧
      ((∀ g ∈ given, g = none) → (percents.map Quantity.value).sum = 100 →
        result.sum = total) := by
  obtain ⟨rounded, hrounded, hlimits⟩ := limits_eq htotal hlength hpercents
  have hsplit := isSplit_handOut hlength hpercents hrounded
  exact ⟨_, hlimits, hsplit, hsplit.sum_eq_total hlength⟩

/-- Percentages of four kinds: none, a half, the other half, and one that comes on top. -/
def halves : List (Quantity ℚ) :=
  [.whole 0, .real 50, .whole 50, .real (35 / 2)]

/-- Seven operations; the last kind may have two, whatever its percentage. -/
theorem limits_exact_halves :
    0 ≤ (7 : Int) ∧ [none, none, none, some (2 : Int)].length = halves.length ∧
      (∀ p ∈ halves, 0 ≤ p.value) ∧
      ∃ result, limits 7 halves [none, none, none, some 2] = .ok result ∧
        IsSplit 7 halves [none, none, none, some 2] result ∧ result = [0, 4, 3, 2] := by
  have hpercents : ∀ p ∈ halves, 0 ≤ p.value := by
    decide +kernel
  have hpositive : 0 ≤ (7 : Int) := by decide
  have hlength : [none, none, none, some (2 : Int)].length = halves.length := rfl
  obtain ⟨result, hlimits, hsplit, -⟩ := limits_exact hpositive hlength hpercents
  have hresult : (limits 7 halves [none, none, none, some 2]).toOption = some [0, 4, 3, 2] := by
    decide +kernel
  rw [hlimits] at hresult
  exact ⟨hpositive, hlength, hpercents, result, hlimits, hsplit, Option.some.inj hresult⟩

end StorageLoad.Shares
