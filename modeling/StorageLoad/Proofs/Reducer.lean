import StorageLoad.Job
import StorageLoad.Proofs.Arrival
import StorageLoad.Proofs.Literal

/-!
Merging counts.  A statistic is read back from its key and its text (`parse_key`), so that merging
any number of counts succeeds and leaves every sum as it was (`exists_addAll`), and it makes no
difference in which order they come (`IsMergeOf.eq_of_perm`).
-/

namespace StorageLoad

theorem Value.toTextOutcome_int (n : Int) : (int n).toTextOutcome = integerText n := by
  have hvalue : (int n).toText? = if isOversized n then .error .tooLongToWrite
      else .ok (toString n) := rfl
  rw [toTextOutcome, hvalue, integerText]
  exact apply_ite _ _ _ _

namespace Figure

/-- The count that a figure is; other figures count nothing. -/
def amount : Figure → Int
  | long n => n
  | _ => 0

theorem Combines.eq_long {fs : List Figure} {f : Figure} (h : Combines fs f)
    (hform : f.form = .long) :
    f = .long (fs.map amount).sum := by
  cases h with
  | long ns hne => simp [amount, Function.comp_def]
  | _ => cases hform

end Figure

namespace Record

/-- What a statistic adds to a measurement of an operation. -/
def amount (opType measurement : String) (r : Record) : Int :=
  if r.opType = opType ∧ r.measurement = measurement then r.figure.amount else 0

/-- What statistics add up to for a measurement of an operation. -/
def total (records : List Record) (opType measurement : String) : Int :=
  (records.map (amount opType measurement)).sum

/-- Whether a statistic is a count under a name that can be told from the measurement in a key. -/
structure IsCount (r : Record) : Prop where
  figure : r.figure.form = .long
  opType : '*' ∉ r.opType.toList

theorem amount_long (o m opType measurement : String) (n : Int) :
    (long o m n).amount opType measurement = if o = opType ∧ m = measurement then n else 0 :=
  rfl

theorem total_cons (r : Record) (records : List Record) (opType measurement : String) :
    total (r :: records) opType measurement =
      r.amount opType measurement + total records opType measurement :=
  List.sum_cons

theorem total_append (records rest : List Record) (opType measurement : String) :
    total (records ++ rest) opType measurement =
      total records opType measurement + total rest opType measurement := by
  rw [total, List.map_append, List.sum_append]
  rfl

section Total

variable {r : Record} {records rest : List Record} {opType measurement : String}

theorem amount_eq_zero (h : r.opType = opType → r.measurement ≠ measurement) :
    r.amount opType measurement = 0 :=
  if_neg fun heq => h heq.1 heq.2

theorem total_eq_zero (h : ∀ r ∈ records, r.opType = opType → r.measurement ≠ measurement) :
    total records opType measurement = 0 := by
  apply List.sum_eq_zero
  intro n hn
  obtain ⟨r, hr, rfl⟩ := List.mem_map.mp hn
  exact amount_eq_zero (h r hr)

theorem total_perm {rest : List Record} (h : records.Perm rest) :
    total records opType measurement = total rest opType measurement :=
  (h.map _).sum_eq

end Total

/-- What the statistics with a key add up to. -/
def sumOf (key : String) (records : List Record) : Int :=
  ((records.filter (·.key = key)).map (·.figure.amount)).sum

theorem sumOf_cons (key : String) (r : Record) (records : List Record) :
    sumOf key (r :: records) = (if r.key = key then r.figure.amount else 0) +
      sumOf key records := by
  by_cases h : r.key = key <;> simp [sumOf, h]

theorem sumOf_append (key : String) (records rest : List Record) :
    sumOf key (records ++ rest) = sumOf key records + sumOf key rest := by
  rw [sumOf, List.filter_append, List.map_append, List.sum_append]
  rfl

theorem sumOf_eq_zero {key : String} {records : List Record} (h : key ∉ records.map Record.key) :
    sumOf key records = 0 := by
  have hnone : records.filter (·.key = key) = [] := by
    rw [List.filter_eq_nil_iff]
    intro r hr hkey
    exact h (List.mem_map.mpr ⟨r, hr, of_decide_eq_true hkey⟩)
  rw [sumOf, hnone]
  rfl

section Key

variable {form : Figure.Form} {opType measurement : String}

theorem keyOf_injective {form' : Figure.Form} {opType' measurement' : String}
    (h : '*' ∉ opType.toList) (h' : '*' ∉ opType'.toList)
    (heq : keyOf form opType measurement = keyOf form' opType' measurement') :
    (form, opType, measurement) = (form', opType', measurement') := by
  have hread : readKey (keyOf form opType measurement) = .ok (form, opType, measurement) :=
    readKey_keyOf h
  rw [heq, readKey_keyOf h'] at hread
  exact (Except.ok.inj hread).symm

end Key

section Text

variable {r s : Record} {text : String}

theorem IsCount.exists_eq (h : r.IsCount) :
    ∃ opType measurement n, '*' ∉ opType.toList ∧ r = long opType measurement n := by
  obtain ⟨opType, measurement, figure⟩ := r
  obtain ⟨hfigure, hopType⟩ := h
  cases figure with
  | long n => exact ⟨opType, measurement, n, hopType, rfl⟩
  | _ => cases hfigure

theorem IsCount.isOf (h : r.IsCount) : r.IsOf r.key :=
  readKey_keyOf h.opType

theorem IsCount.key_eq_iff (h : r.IsCount) {opType measurement : String}
    (hstar : '*' ∉ opType.toList) :
    r.key = keyOf .long opType measurement ↔ r.opType = opType ∧ r.measurement = measurement := by
  rw [key, h.figure]
  constructor
  · intro heq
    obtain ⟨-, hnames⟩ := Prod.mk.inj (keyOf_injective h.opType hstar heq)
    exact Prod.mk.inj hnames
  · rintro ⟨rfl, rfl⟩
    rfl

variable {records : List Record}

theorem total_eq_sumOf (h : ∀ r ∈ records, r.IsCount) {opType measurement : String}
    (hstar : '*' ∉ opType.toList) :
    total records opType measurement = sumOf (keyOf .long opType measurement) records := by
  induction records with
  | nil => rfl
  | cons r records ih =>
      obtain ⟨hr, hrecords⟩ := List.forall_mem_cons.mp h
      rw [total_cons, sumOf_cons, ih hrecords, amount]
      simp only [hr.key_eq_iff hstar]

theorem total_eq_zero_of_star (h : ∀ r ∈ records, r.IsCount) {opType measurement : String}
    (hstar : '*' ∈ opType.toList) : total records opType measurement = 0 := by
  apply total_eq_zero
  rintro r hr rfl
  exact absurd hstar (h r hr).opType

theorem text_long (opType measurement : String) (n : Int) :
    (long opType measurement n).text = integerText n :=
  Value.toTextOutcome_int n

theorem isOk_text_long {n : Int} (h : Value.isOversized n = false) (opType measurement : String) :
    (long opType measurement n).text.isOk := by
  rw [text_long, integerText, h]
  rfl

/-- A count that goes out as a key and a text is read back. -/
theorem parse_key (h : r.IsCount) (htext : r.text = .ok text) :
    parse r.key (.text text) = .ok r := by
  obtain ⟨opType, measurement, n, hopType, rfl⟩ := h.exists_eq
  rw [text_long, integerText] at htext
  split at htext
  · cases htext
  · rename_i hshort
    obtain rfl := Except.ok.inj htext
    have hnumber := Literal.integer_toString (Bool.not_eq_true _ ▸ hshort)
    have hkey : readKey (long opType measurement n).key = .ok (.long, opType, measurement) :=
      readKey_keyOf hopType
    simp only [parse, hkey, ofValue, Figure.ofValue, Value.toInt, hnumber]
    rfl

end Text

end Record

namespace Job

theorem exists_of_pairs_cons {r : Record} {records : List Record} {ps : List (String × String)}
    (h : pairs (r :: records) = .ok ps) :
    ∃ text rest, r.text = .ok text ∧ pairs records = .ok rest ∧ ps = (r.key, text) :: rest := by
  rw [pairs, List.mapM_cons] at h
  obtain ⟨pair, hpair, h⟩ := Outcome.exists_of_bind h
  obtain ⟨rest, hrest, h⟩ := Outcome.exists_of_bind h
  obtain ⟨text, htext, hpair⟩ := Outcome.exists_of_bind hpair
  obtain rfl := Except.ok.inj hpair
  exact ⟨text, rest, htext, hrest, (Except.ok.inj h).symm⟩

end Job

namespace Reducer

open Record

variable {m m' : Reducer} {key : String} {r : Record} {records rest : List Record}

theorem IsMergeOf.isCount (h : m.IsMergeOf records) (hcounts : ∀ s ∈ records, s.IsCount)
    (hget : m.get? key = some r) : r.IsCount ∧ r.figure = .long (sumOf key records) := by
  obtain ⟨hr, hcombines⟩ := h.combines key r hget
  obtain ⟨s, hs, rfl⟩ := h.exists_of_get? hget
  have hcount := hcounts s hs
  have hsame : (r.figure.form, r.opType, r.measurement) =
      (s.figure.form, s.opType, s.measurement) :=
    Except.ok.inj (Eq.trans (Eq.symm hr) hcount.isOf)
  obtain ⟨hform, hnames⟩ := Prod.mk.inj hsame
  have hlong : r.figure.form = .long := hform.trans hcount.figure
  have hopType : '*' ∉ r.opType.toList := by
    rw [(Prod.mk.inj hnames).1]
    exact hcount.opType
  refine ⟨⟨hlong, hopType⟩, ?_⟩
  rw [hcombines.eq_long hlong, figuresOf, List.map_map]
  rfl

/-- What is merged does not depend on the order in which counts come. -/
theorem IsMergeOf.eq_of_perm (h : m.IsMergeOf records) (h' : m'.IsMergeOf rest)
    (hperm : records.Perm rest) (hcounts : ∀ s ∈ records, s.IsCount) : m = m' := by
  apply h.eq_of_figures h' fun key => (hperm.map _).mem_iff
  intro key f g hf hg
  refine hf.eq_of_perm hg (figuresOf_perm hperm key) (form_ne_of_combines ?_ hf)
    (form_ne_of_combines ?_ hf)
  all_goals
    intro s hs
    rw [(hcounts s hs).figure]
    decide

theorem IsMergeOf.sumOf_outputs (h : m.IsMergeOf records) (hcounts : ∀ s ∈ records, s.IsCount)
    (key : String) : sumOf key m.outputs = sumOf key records := by
  cases hget : m.get? key with
  | none =>
      have hkey : key ∉ records.map Record.key := by
        rw [← h.isSome_get?_iff, hget]
        exact Bool.false_ne_true
      rw [sumOf_eq_zero hkey, sumOf_eq_zero (h.mem_keys_iff.not.mpr hkey)]
  | some r =>
      have hfigure := (h.isCount hcounts hget).2
      have hr : r.key = key := (h.combines key r hget).1.key_eq
      have hperm : (m.outputs.filter (·.key = key)).Perm [r] := by
        refine (List.perm_ext_iff_of_nodup (h.nodup_keys.of_map.filter _)
          (List.nodup_singleton r)).mpr ?_
        intro s
        rw [List.mem_filter, h.mem_outputs_iff, decide_eq_true_eq, List.mem_singleton]
        constructor
        · rintro ⟨hs, rfl⟩
          exact Option.some.inj (hs.symm.trans hget)
        · rintro rfl
          exact ⟨by rwa [hr], hr⟩
      rw [sumOf, List.perm_singleton.mp hperm, List.map_singleton, List.sum_singleton, hfigure]
      rfl

theorem IsMergeOf.total_outputs (h : m.IsMergeOf records) (hcounts : ∀ s ∈ records, s.IsCount)
    (opType measurement : String) :
    total m.outputs opType measurement = total records opType measurement := by
  have houtputs : ∀ s ∈ m.outputs, s.IsCount := fun s hs =>
    (h.isCount hcounts (h.mem_outputs_iff.mp hs)).1
  by_cases hstar : '*' ∈ opType.toList
  · rw [total_eq_zero_of_star houtputs hstar, total_eq_zero_of_star hcounts hstar]
  · rw [total_eq_sumOf houtputs hstar, total_eq_sumOf hcounts hstar, h.sumOf_outputs hcounts]

theorem reads_of_pairs (hcounts : ∀ s ∈ records, s.IsCount) {pairs : List (String × String)}
    (hpairs : Job.pairs records = .ok pairs) :
    List.Forall₂ Reads (pairs.map fun (key, text) => (key, .text text)) records := by
  induction records generalizing pairs with
  | nil =>
      obtain rfl : [] = pairs := Except.ok.inj hpairs
      exact .nil
  | cons r records ih =>
      obtain ⟨hr, hrecords⟩ := List.forall_mem_cons.mp hcounts
      obtain ⟨text, rest, htext, hrest, rfl⟩ := Job.exists_of_pairs_cons hpairs
      exact .cons (parse_key hr htext) (ih hrecords hrest)

/-- Counts that go out can be merged, and add up to what they added up to before. -/
theorem exists_addAll (hcounts : ∀ s ∈ records, s.IsCount) {pairs : List (String × String)}
    (hpairs : Job.pairs records = .ok pairs) :
    ∃ m, empty.addAll (pairs.map fun (key, text) => (key, .text text)) = (.ok (), m) ∧
      m.IsMergeOf records ∧ ∀ opType measurement,
        total m.outputs opType measurement = total records opType measurement := by
  obtain ⟨m, haddAll, hm⟩ := isMergeOf_empty.exists_addAll (reads_of_pairs hcounts hpairs)
  exact ⟨m, haddAll, hm, hm.total_outputs hcounts⟩

end Reducer

end StorageLoad
