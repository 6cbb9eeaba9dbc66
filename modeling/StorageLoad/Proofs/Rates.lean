import Mathlib.Tactic.NormNum
import StorageLoad.Proofs.Config.Faults
import StorageLoad.Proofs.Double.Order
import StorageLoad.Proofs.Exact
import StorageLoad.Report

/-!
The rates of amounts.  Integers of less than 54 bits are divided as they are
(`isResult_perSecond`), and a time that is longer than nothing stays so in seconds
(`seconds_ne_zero`), so that amounts have all the rates that follow from them (`ratesOf_eq`) and
none of whatever size is divided by zero (`failsOnly_ratesOf`).
-/

namespace StorageLoad

namespace Double

open Float.Model Float.Model.UnpackedFloat

variable {n : Int} {x : Float}

/-- The double nearest to an integer. -/
def ofWhole (n : Int) : Float :=
  nearest (n < 0) n.natAbs 1

theorem ofInt_eq_ofWhole (h : n.natAbs < 2 ^ 53) : ofInt n = .ok (ofWhole n) := by
  have hle : n.natAbs ≤ 2 ^ 1020 := by
    refine h.le.trans (pow_le_pow_right₀ ?_ ?_)
    · decide
    · decide
  rw [ofInt, tooLarge_eq_false (by rwa [Nat.mul_one])]
  rfl

theorem exists_full {m : Nat} (hpos : 0 < m) (h : m < 2 ^ 53) :
    ∃ k ≤ 52, 2 ^ 52 ≤ m * 2 ^ k ∧ m * 2 ^ k < 2 ^ 53 := by
  have hlog : m.log2 ≤ 52 := Nat.le_of_lt_succ ((Nat.log2_lt hpos.ne').mpr h)
  refine ⟨52 - m.log2, Nat.sub_le _ _, ?_, ?_⟩
  · calc
      2 ^ 52 = 2 ^ m.log2 * 2 ^ (52 - m.log2) := by rw [← pow_add, Nat.add_sub_of_le hlog]
      _ ≤ m * 2 ^ (52 - m.log2) := Nat.mul_le_mul_right _ (Nat.log2_self_le hpos.ne')
  · calc
      m * 2 ^ (52 - m.log2) < 2 ^ (m.log2 + 1) * 2 ^ (52 - m.log2) :=
        Nat.mul_lt_mul_of_pos_right Nat.lt_log2_self (Nat.two_pow_pos _)
      _ = 2 ^ 53 := by rw [← pow_add, Nat.add_right_comm, Nat.add_sub_of_le hlog]

theorem exists_isNumber (h : n.natAbs < 2 ^ 53) : ∃ u, IsNumber u ∧ worth u = n := by
  by_cases hzero : n = 0
  · refine ⟨.zero .positive, .zero _, ?_⟩
    rw [hzero, worth_zero, Int.cast_zero]
  · have hpos : 0 < n.natAbs := Int.natAbs_pos.mpr hzero
    obtain ⟨k, hk, hlow, hhigh⟩ := exists_full hpos h
    have hsign : signed (if n < 0 then .negative else .positive) (n.natAbs : ℚ) = n := by
      rw [Nat.cast_natAbs]
      split
      · rename_i hneg
        rw [signed, abs_of_neg hneg, Int.cast_neg, neg_neg]
      · rename_i hneg
        rw [signed, abs_of_nonneg (not_lt.mp hneg)]
    refine ⟨.finite (if n < 0 then .negative else .positive) (n.natAbs * 2 ^ k) (-k)
      (Nat.mul_pos hpos (Nat.two_pow_pos k)),
      .finite _ _ _ _ hhigh (by omega) (by omega) (Or.inl hlow), ?_⟩
    rw [worth_finite, zpow_neg, zpow_natCast]
    push_cast
    rw [mul_inv_cancel_right₀ (pow_ne_zero k two_ne_zero)]
    exact_mod_cast hsign

theorem isNumber_ofWhole (h : n.natAbs < 2 ^ 53) : IsNumber (parts (ofWhole n)) :=
  (isResult_ofInt (ofInt_eq_ofWhole h)).1

theorem value_ofWhole (h : n.natAbs < 2 ^ 53) : value (ofWhole n) = n := by
  have hresult := (isResult_ofInt (ofInt_eq_ofWhole h)).2
  obtain ⟨u, hu, hworth⟩ := exists_isNumber h
  have hexact := isResult_worth hu
  rw [hworth] at hexact
  have hplace := le_antisymm (hresult.mono hexact le_rfl) (hexact.mono hresult le_rfl)
  rw [place_of_isNumber (isNumber_ofWhole h), place_of_isNumber hu, hworth] at hplace
  exact hplace

/-- However short a time is, in seconds it does not become zero. -/
theorem seconds_ne_zero (hn : 0 < n) (hx : ofInt n = .ok x) : (x / 1000.0 == 0.0) = false := by
  have hone : (1.0 : Float) ≤ x :=
    isResult_one_parts.le (isResult_ofInt hx).2 (by exact_mod_cast hn)
  have hpos : (0.0 : Float) < x / 1000.0 := by
    have hthousand : 0 < value 1000.0 := by
      rw [value_thousand]
      norm_num
    have hleast : (0.0 : Float) < 1.0 / 1000.0 := by decide +kernel
    exact float_lt_of_lt_of_le hleast (quotient_mono isNumber_thousand hthousand hone)
  obtain ⟨-, -, hrank⟩ := lt_iff_rank.mp hpos
  rw [Bool.eq_false_iff]
  intro heq
  obtain ⟨-, -, hsame⟩ := beq_iff_rank.mp heq
  exact hrank.ne' hsame

end Double

section Steps

variable {ε α β : Type} {f : α → Except ε (Option β)} {as : List α}

theorem filterMapM_eq_ok {g : α → Option β} (h : ∀ a ∈ as, f a = .ok (g a)) :
    as.filterMapM f = .ok (as.filterMap g) := by
  induction as with
  | nil => rfl
  | cons a as ih =>
      obtain ⟨ha, has⟩ := List.forall_mem_cons.mp h
      rw [List.filterMapM_cons, ha, ih has, List.filterMap_cons]
      cases g a with
      | none => rfl
      | some b => rfl

theorem FailsOnly.filterMapM {bad : ε → Prop} (h : ∀ a ∈ as, FailsOnly bad (f a)) :
    FailsOnly bad (as.filterMapM f) := by
  induction as with
  | nil => exact ok []
  | cons a as ih =>
      obtain ⟨ha, has⟩ := List.forall_mem_cons.mp h
      rw [List.filterMapM_cons]
      refine bind ha fun b _ => ?_
      cases b with
      | none => exact ih has
      | some b => exact bind (ih has) fun _ _ => ok _

end Steps

namespace Report

variable {rate : Rate} {n t : Int} {amounts : List (String × Int)}

/-- Amounts by measurement, as the figures of an operation. -/
def ofAmounts (amounts : List (String × Int)) : List (String × Figure) :=
  amounts.map fun (measurement, n) => (measurement, .long n)

/-- The rate of an amount for a time in milliseconds. -/
def perSecond (rate : Rate) (n t : Int) : Float :=
  Double.ofWhole n / rate.unit / (Double.ofWhole t / 1000.0)

/-- The rates of amounts, where a time was taken: of the measurements in the table those that are
there. -/
def ratesFrom (amounts : List (String × Int)) : List (String × Float) :=
  match amounts.lookup Measurement.timeTaken with
  | some t =>
      if 0 < t then
        rates.filterMap fun rate =>
          (amounts.lookup rate.measurement).map fun n => (rate.label, perSecond rate n t)
      else []
  | none => []

theorem parts_mebibyte : Double.parts mebibyte = .finite .positive (2 ^ 52) (-32) (by decide) :=
  rfl

theorem isNumber_unit (h : rate ∈ rates) :
    Double.IsNumber (Double.parts rate.unit) ∧ Double.value rate.unit ≠ 0 := by
  have hunit : ∀ rate ∈ rates, rate.unit = 1.0 ∨ rate.unit = mebibyte := by decide +kernel
  rcases hunit rate h with heq | heq
  · rw [heq, Double.value_one]
    exact ⟨Double.isNumber_one, one_ne_zero⟩
  · rw [heq, Double.value, parts_mebibyte]
    exact ⟨.finite _ _ _ _ (by decide) (by decide) (by decide) (Or.inl le_rfl),
      Double.worth_finite_ne_zero _ _ _ _⟩

/-- A rate is the quotient of the amount in its unit and of the seconds, both of them rounded
once. -/
theorem isResult_perSecond (hrate : rate ∈ rates) (hn : n.natAbs < 2 ^ 53)
    (ht : t.natAbs < 2 ^ 53) :
    ∃ amount seconds, perSecond rate n t = amount / seconds ∧
      Double.IsResult (n / Double.value rate.unit) (Double.parts amount) ∧
      Double.IsResult (t / 1000) (Double.parts seconds) := by
  obtain ⟨hunit, hne⟩ := isNumber_unit hrate
  have hamount := Double.isResult_quotient (Double.isNumber_ofWhole hn) hunit hne
  have hthousand : Double.value 1000.0 ≠ 0 := by
    rw [Double.value_thousand]
    norm_num
  have hseconds :=
    Double.isResult_quotient (Double.isNumber_ofWhole ht) Double.isNumber_thousand hthousand
  rw [Double.value_ofWhole hn] at hamount
  rw [Double.value_ofWhole ht, Double.value_thousand] at hseconds
  exact ⟨_, _, rfl, hamount, hseconds⟩

theorem lookup_ofAmounts (measurement : String) (amounts : List (String × Int)) :
    (ofAmounts amounts).lookup measurement = (amounts.lookup measurement).map Figure.long := by
  induction amounts with
  | nil => rfl
  | cons entry amounts ih =>
      rw [ofAmounts, List.map_cons, List.lookup_cons, List.lookup_cons, ← ofAmounts, ih]
      cases measurement == entry.1
      · rfl
      · rfl

theorem mem_of_lookup {measurement : String} (h : amounts.lookup measurement = some n) :
    (measurement, n) ∈ amounts := by
  obtain ⟨before, after, rfl, -⟩ := List.lookup_eq_some_iff.mp h
  exact List.mem_append_right before List.mem_cons_self

theorem time_ofAmounts (amounts : List (String × Int)) :
    number (((ofAmounts amounts).lookup Measurement.timeTaken).getD (.long 0)) =
      .ok (.whole ((amounts.lookup Measurement.timeTaken).getD 0)) := by
  rw [lookup_ofAmounts]
  cases amounts.lookup Measurement.timeTaken with
  | none => rfl
  | some t => rfl

theorem rateOf_eq (hn : n.natAbs < 2 ^ 53) (ht : t.natAbs < 2 ^ 53) (hpos : 0 < t) :
    rateOf rate (.long n) (.whole t) = .ok (perSecond rate n t) := by
  have hnumber : number (.long n) = .ok (.whole n) := rfl
  have hamount : (Quantity.whole n : Quantity Float).toReal = .ok (Double.ofWhole n) :=
    Double.ofInt_eq_ofWhole hn
  have htime : (Quantity.whole t : Quantity Float).toReal = .ok (Double.ofWhole t) :=
    Double.ofInt_eq_ofWhole ht
  rw [rateOf, hnumber, ok_bind, hamount, lift_ok, ok_bind, htime, lift_ok, ok_bind]
  dsimp only
  rw [Double.seconds_ne_zero hpos htime]
  rfl

theorem failsOnly_rateOf (hpos : 0 < t) :
    FailsOnly (· ≠ .noTime) (rateOf rate (.long n) (.whole t)) := by
  refine .bind (.ok (Quantity.whole n)) fun q hq => .bind ?_ fun amount _ =>
    .bind ?_ fun time htime => ?_
  · exact .mapError .any fun _ _ => nofun
  · exact .mapError .any fun _ _ => nofun
  · cases hreal : (Quantity.whole t : Quantity Float).toReal with
    | error cause =>
        rw [hreal] at htime
        cases htime
    | ok seconds =>
        rw [hreal] at htime
        obtain rfl := Except.ok.inj htime
        dsimp only
        rw [Double.seconds_ne_zero hpos hreal]
        exact .ok _

theorem isOver_whole (t : Int) : isOver (.whole t) = decide (t ≤ 0) :=
  rfl

/-- Amounts have all the rates that follow from them. -/
theorem ratesOf_eq (h : ∀ entry ∈ amounts, entry.2.natAbs < 2 ^ 53) :
    ratesOf (ofAmounts amounts) = .ok (ratesFrom amounts) := by
  rw [ratesOf, time_ofAmounts, ok_bind, ratesFrom, isOver_whole]
  cases htime : amounts.lookup Measurement.timeTaken with
  | none => rfl
  | some t =>
      by_cases hpos : 0 < t
      · rw [Option.getD_some, decide_eq_false (not_le.mpr hpos), if_neg Bool.false_ne_true]
        dsimp only
        rw [if_pos hpos]
        apply filterMapM_eq_ok
        intro rate _
        rw [lookup_ofAmounts]
        cases hamount : amounts.lookup rate.measurement with
        | none => rfl
        | some n =>
            have hrate : rateOf rate (.long n) (.whole t) = .ok (perSecond rate n t) :=
              rateOf_eq (h _ (mem_of_lookup hamount)) (h _ (mem_of_lookup htime)) hpos
            dsimp only [Option.map_some]
            rw [hrate]
            rfl
      · rw [Option.getD_some, decide_eq_true (not_lt.mp hpos), if_pos rfl]
        dsimp only
        rw [if_neg hpos]
        rfl

/-- Whatever the amounts are, none of them is divided by zero. -/
theorem failsOnly_ratesOf (amounts : List (String × Int)) :
    FailsOnly (· ≠ .noTime) (ratesOf (ofAmounts amounts)) := by
  rw [ratesOf, time_ofAmounts, ok_bind, isOver_whole]
  generalize (amounts.lookup Measurement.timeTaken).getD 0 = t
  by_cases hpos : 0 < t
  · rw [decide_eq_false (not_le.mpr hpos), if_neg Bool.false_ne_true]
    apply FailsOnly.filterMapM
    intro rate _
    rw [lookup_ofAmounts]
    cases amounts.lookup rate.measurement with
    | none => exact .ok _
    | some n => exact .bind (failsOnly_rateOf hpos) fun _ _ => .ok _
  · rw [decide_eq_true (not_lt.mp hpos), if_pos rfl]
    exact .ok _

end Report

end StorageLoad
