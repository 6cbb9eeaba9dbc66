import Mathlib.Algebra.Ring.Int.Defs
import Mathlib.Data.List.Forall2
import StorageLoad.Proofs.Codes
import StorageLoad.Proofs.Table
import StorageLoad.Reducer

/-!
Merging statistics.  Of pairs that can all be read, there comes one statistic for each key, the
sum of the figures under that key or their texts joined in order, however the pairs are split into
batches; a pair that cannot be read ends the merging and leaves what the pairs before it came to
(`addAll_exact`).
-/

namespace StorageLoad

theorem Literal.family_of_integer {s : String} {cause : NumberFault}
    (h : integer s = .error cause) :
    cause.family = .value := by
  simp only [integer] at h
  split at h
  · rw [← Except.error.inj h]
    rfl
  · split at h
    · rw [← Except.error.inj h]
      rfl
    · split at h
      · cases h
      · rw [← Except.error.inj h]
        rfl

theorem Literal.family_of_real {s : String} {cause : NumberFault} (h : real s = .error cause) :
    cause.family = .value := by
  simp only [real] at h
  split at h
  · cases h
  · rw [← Except.error.inj h]
    rfl

namespace Value

/-- The families of faults with which reading a statistic from a value can end. -/
def readFaults : Value → List FaultClass
  | null | list _ | tuple _ | map _ => [.value, .type]
  | int _ | real _ => [.value, .overflow]
  | bool _ | text _ => [.value]

variable {v : Value} {cause : NumberFault}

theorem mem_readFaults_of_value (h : cause.family = .value) (v : Value) :
    cause.family ∈ v.readFaults := by
  rw [h]
  cases v <;> exact List.mem_cons_self

theorem family_of_toInt (h : v.toInt = .error cause) : cause.family ∈ v.readFaults := by
  cases v with
  | bool b => cases h
  | int n => cases h
  | real x =>
      change Double.toInt _ x = _ at h
      rw [Double.toInt] at h
      split at h
      · rw [← Except.error.inj h]
        simp [readFaults, NumberFault.family]
      · rw [← Except.error.inj h]
        simp [readFaults, NumberFault.family]
      · cases h
  | text s => exact mem_readFaults_of_value (Literal.family_of_integer h) _
  | null | list _ | tuple _ | map _ =>
      rw [← Except.error.inj h]
      simp [readFaults, NumberFault.family]

theorem family_of_toReal (h : v.toReal = .error cause) : cause.family ∈ v.readFaults := by
  cases v with
  | bool b => cases h
  | int n =>
      change Double.ofInt n = _ at h
      rw [Double.ofInt] at h
      split at h
      · rw [← Except.error.inj h]
        simp [readFaults, NumberFault.family]
      · cases h
  | real x => cases h
  | text s => exact mem_readFaults_of_value (Literal.family_of_real h) _
  | null | list _ | tuple _ | map _ =>
      rw [← Except.error.inj h]
      simp [readFaults, NumberFault.family]

theorem family_of_toText (h : v.toText? = .error cause) : cause.family ∈ v.readFaults := by
  unfold toText? at h
  split at h
  · cases h
  · rw [quoted?] at h
    split at h
    · rw [← Except.error.inj h]
      exact mem_readFaults_of_value rfl _
    · cases h

end Value

namespace Figure

/-- What figures of one sort come to when they are merged in their order: their sum, or their
texts with semicolons between them. -/
inductive Combines : List Figure → Figure → Prop
  | long (ns : List Int) (h : ns ≠ []) : Combines (ns.map .long) (.long ns.sum)
  | double (x : Float) (xs : List Float) :
      Combines ((x :: xs).map .double) (.double (xs.foldl (· + ·) x))
  | integer (ns : List Int) (h : ns ≠ []) : Combines (ns.map .integer) (.integer ns.sum)
  | text (ss : List String) (h : ss ≠ []) : Combines (ss.map .text) (.text (";".intercalate ss))

variable {f g : Figure} {fs : List Figure} {form : Form} {v : Value}

theorem combines_singleton (f : Figure) : Combines [f] f := by
  cases f with
  | long n => simpa using Combines.long [n] (by simp)
  | double x => exact Combines.double x []
  | integer n => simpa using Combines.integer [n] (by simp)
  | text s => simpa using Combines.text [s] (by simp)

theorem Combines.exists_add (h : Combines fs f) (hform : g.form = f.form) :
    ∃ merged, f.add g = some merged ∧ merged.form = f.form ∧ Combines (fs ++ [g]) merged := by
  cases h with
  | long ns hne =>
      cases g with
      | long n =>
          refine ⟨_, rfl, rfl, ?_⟩
          simpa using Combines.long (ns ++ [n]) (by simp)
      | _ => cases hform
  | double x xs =>
      cases g with
      | double y =>
          refine ⟨_, rfl, rfl, ?_⟩
          simpa using Combines.double x (xs ++ [y])
      | _ => cases hform
  | integer ns hne =>
      cases g with
      | integer n =>
          refine ⟨_, rfl, rfl, ?_⟩
          simpa using Combines.integer (ns ++ [n]) (by simp)
      | _ => cases hform
  | text ss hne =>
      cases g with
      | text t =>
          refine ⟨_, rfl, rfl, ?_⟩
          have hjoined := Combines.text (ss ++ [t]) (by simp)
          rwa [String.intercalate_append_of_ne_nil hne (by simp), String.intercalate_singleton,
            List.map_append] at hjoined
      | _ => cases hform

theorem Combines.ne_nil (h : Combines fs f) : fs ≠ [] := by
  cases h with
  | double => simp
  | _ => simpa

theorem Combines.form_eq (h : Combines fs f) : ∀ g ∈ fs, g.form = f.form := by
  cases h with
  | _ =>
      intro g hg
      obtain ⟨_, -, rfl⟩ := List.mem_map.mp hg
      rfl

theorem Combines.unique (h : Combines fs f) (h' : Combines fs g) : f = g := by
  have hform : g.form = f.form := by
    obtain ⟨first, rest, rfl⟩ := List.exists_cons_of_ne_nil h.ne_nil
    rw [← h.form_eq first List.mem_cons_self, h'.form_eq first List.mem_cons_self]
  cases h with
  | long ns hne =>
      generalize hfs : ns.map Figure.long = fs at h'
      cases h' with
      | long ns' hne' =>
          rw [List.map_injective_iff.mpr (fun _ _ => Figure.long.inj) hfs]
      | _ => cases hform
  | double x xs =>
      generalize hfs : (x :: xs).map Figure.double = fs at h'
      cases h' with
      | double x' xs' =>
          obtain ⟨rfl, rfl⟩ :=
            List.cons.inj (List.map_injective_iff.mpr (fun _ _ => Figure.double.inj) hfs)
          rfl
      | _ => cases hform
  | integer ns hne =>
      generalize hfs : ns.map Figure.integer = fs at h'
      cases h' with
      | integer ns' hne' =>
          rw [List.map_injective_iff.mpr (fun _ _ => Figure.integer.inj) hfs]
      | _ => cases hform
  | text ss hne =>
      generalize hfs : ss.map Figure.text = fs at h'
      cases h' with
      | text ss' hne' =>
          rw [List.map_injective_iff.mpr (fun _ _ => Figure.text.inj) hfs]
      | _ => cases hform

theorem form_of_ofValue (h : ofValue form v = .ok f) : f.form = form := by
  cases form with
  | long | double | integer | text =>
      obtain ⟨_, -, hf⟩ := Outcome.exists_of_bind h
      rw [← Except.ok.inj hf]
      rfl

theorem exists_of_ofValue_error {fault : Fault} (h : ofValue form v = .error fault) :
    ∃ cause, fault = .number cause ∧ cause.family ∈ v.readFaults := by
  have hnumber : ∀ {α : Type} {answer : Except NumberFault α},
      (∀ cause, answer = .error cause → cause.family ∈ v.readFaults) →
      (liftM answer : Outcome α) = .error fault →
      ∃ cause, fault = .number cause ∧ cause.family ∈ v.readFaults := by
    intro α answer hfamily hlift
    cases answer with
    | error cause => exact ⟨cause, (Except.error.inj hlift).symm, hfamily cause rfl⟩
    | ok a => cases hlift
  cases form with
  | long =>
      rcases Outcome.error_of_bind h with h | ⟨_, -, h⟩
      · exact hnumber (fun _ => Value.family_of_toInt) h
      · cases h
  | double =>
      rcases Outcome.error_of_bind h with h | ⟨_, -, h⟩
      · exact hnumber (fun _ => Value.family_of_toReal) h
      · cases h
  | integer =>
      rcases Outcome.error_of_bind h with h | ⟨_, -, h⟩
      · exact hnumber (fun _ => Value.family_of_toInt) h
      · cases h
  | text =>
      rcases Outcome.error_of_bind h with h | ⟨_, -, h⟩
      · exact hnumber (fun _ => Value.family_of_toText) h
      · cases h

end Figure

namespace Record

section Key

variable {form : Figure.Form} {opType measurement key : String}

theorem readKey_keyOf (h : '*' ∉ opType.toList) :
    readKey (keyOf form opType measurement) = .ok (form, opType, measurement) := by
  have hcolon : Text.splitFirst ':' (keyOf form opType measurement).toList =
      some ([form.letter], opType.toList ++ '*' :: measurement.toList) := by
    rw [Text.splitFirst_eq_some_iff, keyOf, String.toList_ofList]
    refine ⟨rfl, ?_⟩
    cases form <;> decide
  have hstar : Text.splitFirst '*' (opType.toList ++ '*' :: measurement.toList) =
      some (opType.toList, measurement.toList) :=
    Text.splitFirst_eq_some_iff.mpr ⟨rfl, h⟩
  have hform : Figure.Form.ofText? [form.letter] = some form :=
    Figure.Form.ofText?_eq_some_iff.mpr rfl
  simp only [readKey, hcolon, hstar, hform, String.ofList_toList]

theorem keyOf_of_readKey (h : readKey key = .ok (form, opType, measurement)) :
    keyOf form opType measurement = key := by
  simp only [readKey] at h
  split at h
  · cases h
  · rename_i code rest hcolon
    split at h
    · rename_i o m form' hstar hform
      obtain ⟨rfl, hnames⟩ := Prod.mk.inj (Except.ok.inj h)
      obtain ⟨rfl, rfl⟩ := Prod.mk.inj hnames
      obtain ⟨hkey, -⟩ := Text.splitFirst_eq_some_iff.mp hcolon
      obtain ⟨hrest, -⟩ := Text.splitFirst_eq_some_iff.mp hstar
      rw [Figure.Form.ofText?_eq_some_iff.mp hform, hrest] at hkey
      apply String.toList_inj.mp
      rw [hkey, keyOf, String.toList_ofList, String.toList_ofList, String.toList_ofList]
      rfl
    · cases h

theorem fault_of_readKey {fault : Fault} (h : readKey key = .error fault) :
    fault = .record (.badKey key) := by
  simp only [readKey] at h
  split at h
  · exact (Except.error.inj h).symm
  · split at h
    · cases h
    · exact (Except.error.inj h).symm

end Key

variable {key : String} {v : Value} {r s : Record} {fs : List Figure} {fault : Fault}

/-- Whether a statistic has the sort and the names that a key says. -/
def IsOf (key : String) (r : Record) : Prop :=
  readKey key = .ok (r.figure.form, r.opType, r.measurement)

theorem IsOf.key_eq (h : r.IsOf key) : r.key = key :=
  keyOf_of_readKey h

theorem isOf_of_parse (h : parse key v = .ok r) : r.IsOf key := by
  obtain ⟨⟨form, opType, measurement⟩, hkey, h⟩ := Outcome.exists_of_bind h
  obtain ⟨figure, hfigure, h⟩ := Outcome.exists_of_bind h
  obtain rfl := Except.ok.inj h
  rw [IsOf, Figure.form_of_ofValue hfigure]
  exact hkey

theorem family_of_parse (h : parse key v = .error fault) : fault.family ∈ v.readFaults := by
  rcases Outcome.error_of_bind h with h | ⟨_, -, h⟩
  · rw [fault_of_readKey h]
    cases v <;> exact List.mem_cons_self
  · rcases Outcome.error_of_bind h with h | ⟨_, -, h⟩
    · obtain ⟨cause, rfl, hfamily⟩ := Figure.exists_of_ofValue_error h
      exact hfamily
    · cases h

theorem IsOf.exists_merge (h : r.IsOf key) (hs : s.IsOf key)
    (hcombines : Figure.Combines fs r.figure) :
    ∃ merged, r.merge s = .ok merged ∧ merged.IsOf key ∧
      Figure.Combines (fs ++ [s.figure]) merged.figure := by
  have hsame : (s.figure.form, s.opType, s.measurement) =
      (r.figure.form, r.opType, r.measurement) :=
    Except.ok.inj (Eq.trans (Eq.symm hs) h)
  obtain ⟨figure, hadd, hform, hmerged⟩ := hcombines.exists_add (Prod.mk.inj hsame).1
  refine ⟨{ r with figure }, ?_, ?_, hmerged⟩
  · rw [merge, if_pos (hs.key_eq.trans h.key_eq.symm), hadd]
  · rw [IsOf, hform]
    exact h

end Record

namespace Reducer

open Record Figure

variable {m : Reducer} {key : String} {v : Value} {r merged : Record} {records rest : List Record}
  {pairs : List (String × Value)} {fault : Fault}

/-- The figures of the statistics with a key, in their order. -/
def figuresOf (key : String) (records : List Record) : List Figure :=
  (records.filter (·.key = key)).map (·.figure)

theorem figuresOf_append (key : String) (records rest : List Record) :
    figuresOf key (records ++ rest) = figuresOf key records ++ figuresOf key rest := by
  rw [figuresOf, List.filter_append, List.map_append]
  rfl

theorem figuresOf_singleton (key : String) (r : Record) :
    figuresOf key [r] = if r.key = key then [r.figure] else [] := by
  by_cases h : r.key = key <;> simp [figuresOf, h]

theorem figuresOf_eq_nil_iff {key : String} :
    figuresOf key records = [] ↔ ∀ r ∈ records, r.key ≠ key := by
  simp [figuresOf, List.filter_eq_nil_iff]

/-- The merged statistics are, under each key, what the statistics with that key come to. -/
structure IsMergeOf (m : Reducer) (records : List Record) : Prop where
  sorted : m.IsSorted
  combines : ∀ key r, m.get? key = some r → r.IsOf key ∧ Combines (figuresOf key records) r.figure
  complete : ∀ r ∈ records, (m.get? r.key).isSome

theorem IsMergeOf.exists_of_get? (h : m.IsMergeOf records) (hget : m.get? key = some r) :
    ∃ s ∈ records, s.key = key := by
  have hne := (h.combines key r hget).2.ne_nil
  rw [Ne, figuresOf_eq_nil_iff] at hne
  simpa using hne

theorem IsMergeOf.isSome_get?_iff (h : m.IsMergeOf records) :
    (m.get? key).isSome ↔ key ∈ records.map Record.key := by
  rw [List.mem_map]
  constructor
  · intro hsome
    obtain ⟨r, hget⟩ := Option.isSome_iff_exists.mp hsome
    exact h.exists_of_get? hget
  · rintro ⟨s, hs, rfl⟩
    exact h.complete s hs

theorem isMergeOf_empty : IsMergeOf empty [] where
  sorted := List.Pairwise.nil
  combines := by simp [empty, Table.empty, Table.get?]
  complete := by simp

/-- One more statistic, merged with those that have its key. -/
theorem IsMergeOf.insert (h : m.IsMergeOf records) (hr : r.IsOf key) (hmerged : merged.IsOf key)
    (hcombines : Combines (figuresOf key records ++ [r.figure]) merged.figure) :
    IsMergeOf (m.insert key merged) (records ++ [r]) where
  sorted := h.sorted.insert key merged
  combines := by
    intro k s hget
    rw [Table.get?_insert] at hget
    rw [figuresOf_append, figuresOf_singleton, hr.key_eq]
    by_cases heq : k = key
    · subst heq
      rw [if_pos rfl] at hget ⊢
      rw [← Option.some.inj hget]
      exact ⟨hmerged, hcombines⟩
    · rw [if_neg heq] at hget
      rw [if_neg (Ne.symm heq), List.append_nil]
      exact h.combines k s hget
  complete := by
    intro s hs
    rw [Table.get?_insert]
    split
    · rfl
    · rename_i hne
      rcases List.mem_append.mp hs with hs | hs
      · exact h.complete s hs
      · rw [List.mem_singleton.mp hs, hr.key_eq] at hne
        exact absurd rfl hne

theorem IsMergeOf.exists_add (h : m.IsMergeOf records) (hparse : parse key v = .ok r) :
    ∃ m', m.add key v = .ok m' ∧ m'.IsMergeOf (records ++ [r]) := by
  have hr := isOf_of_parse hparse
  rw [add, hparse]
  cases hget : m.get? key with
  | none =>
      have hnone : figuresOf key records = [] := by
        rw [figuresOf_eq_nil_iff]
        rintro s hs rfl
        have hsome := h.complete s hs
        rw [hget] at hsome
        cases hsome
      refine ⟨m.insert key r, rfl, h.insert hr hr ?_⟩
      rw [hnone]
      exact combines_singleton r.figure
  | some current =>
      obtain ⟨hcurrent, hcombines⟩ := h.combines key current hget
      obtain ⟨merged, hmerge, hmerged, hfigure⟩ := hcurrent.exists_merge hr hcombines
      refine ⟨m.insert key merged, ?_, h.insert hr hmerged hfigure⟩
      change (do return m.insert key (← current.merge r) : Outcome Reducer) = _
      rw [hmerge]
      rfl

theorem add_of_error (h : parse key v = .error fault) : m.add key v = .error fault := by
  rw [add, h]
  rfl

/-- Whether a pair is read as a statistic. -/
def Reads (pair : String × Value) (r : Record) : Prop :=
  parse pair.1 pair.2 = .ok r

theorem IsMergeOf.exists_addAll (h : m.IsMergeOf records)
    (hreads : List.Forall₂ Reads pairs rest) :
    ∃ m', m.addAll pairs = (.ok (), m') ∧ m'.IsMergeOf (records ++ rest) := by
  -- What is merged already is any row of statistics, as each pair adds one to it.
  induction hreads generalizing m records with
  | nil => exact ⟨m, rfl, by rwa [List.append_nil]⟩
  | cons hread hreads ih =>
      rename_i pair r pairs rest
      obtain ⟨m', hadd, hm'⟩ := h.exists_add hread
      obtain ⟨m'', haddAll, hm''⟩ := ih hm'
      refine ⟨m'', ?_, by rwa [List.append_cons]⟩
      rw [addAll, hadd]
      exact haddAll

theorem IsMergeOf.exists_addAll_snd (h : m.IsMergeOf records) (pairs : List (String × Value)) :
    ∃ rest, (m.addAll pairs).2.IsMergeOf rest := by
  induction pairs generalizing m records with
  | nil => exact ⟨records, h⟩
  | cons pair pairs ih =>
      obtain ⟨key, v⟩ := pair
      cases hparse : parse key v with
      | error fault =>
          rw [addAll, add_of_error hparse]
          exact ⟨records, h⟩
      | ok r =>
          obtain ⟨m', hadd, hm'⟩ := h.exists_add hparse
          rw [addAll, hadd]
          exact ih hm'

/-- Merges batches of pairs one after the other, up to the first pair that is bad. -/
def addBatches (m : Reducer) : List (List (String × Value)) → Outcome Unit × Reducer
  | [] => (.ok (), m)
  | pairs :: batches =>
      match m.addAll pairs with
      | (.ok (), m) => addBatches m batches
      | (.error fault, m) => (.error fault, m)

theorem addAll_append (m : Reducer) (pairs rest : List (String × Value)) :
    m.addAll (pairs ++ rest) =
      match m.addAll pairs with
      | (.ok (), m) => m.addAll rest
      | (.error fault, m) => (.error fault, m) := by
  induction pairs generalizing m with
  | nil => rfl
  | cons pair pairs ih =>
      obtain ⟨key, v⟩ := pair
      rw [List.cons_append, addAll, addAll]
      cases m.add key v with
      | error fault => rfl
      | ok m => exact ih m

/-- It makes no difference how pairs are split into batches. -/
theorem addBatches_eq (m : Reducer) (batches : List (List (String × Value))) :
    m.addBatches batches = m.addAll batches.flatten := by
  induction batches generalizing m with
  | nil => rfl
  | cons pairs batches ih =>
      rw [addBatches, List.flatten_cons, addAll_append]
      split
      · exact ih _
      · rfl

section Outputs

theorem perm_outputs (m : Reducer) : m.outputs.Perm (m.entries.map (·.2)) :=
  (List.mergeSort_perm _ _).map _

theorem IsMergeOf.mem_outputs_iff (h : m.IsMergeOf records) :
    r ∈ m.outputs ↔ m.get? r.key = some r := by
  rw [(perm_outputs m).mem_iff, List.mem_map]
  constructor
  · rintro ⟨⟨key, s⟩, hs, rfl⟩
    have hget := (h.sorted.mem_entries_iff key s).mp hs
    rwa [(h.combines key s hget).1.key_eq]
  · intro hget
    exact ⟨(r.key, r), Table.mem_entries_of_get? hget, rfl⟩

theorem IsMergeOf.ascending (h : m.IsMergeOf records) :
    (m.outputs.map Record.key).Pairwise fun k l => Text.codes k < Text.codes l := by
  have hkeys : m.outputs.map Record.key =
      (m.entries.mergeSort fun d e => Text.upTo d.1 e.1).map (·.1) := by
    rw [outputs, List.map_map]
    apply List.map_congr_left
    rintro ⟨key, s⟩ hs
    have hget := (h.sorted.mem_entries_iff key s).mp (List.mem_mergeSort.mp hs)
    exact (h.combines key s hget).1.key_eq
  rw [hkeys]
  exact Text.ascending_mergeSort (Table.nodup_of_ascending h.sorted.pairwise_keys)

theorem IsMergeOf.nodup_keys (h : m.IsMergeOf records) : (m.outputs.map Record.key).Nodup := by
  refine h.ascending.imp ?_
  rintro k l hlt rfl
  exact List.lt_irrefl _ hlt

theorem IsMergeOf.mem_keys_iff (h : m.IsMergeOf records) :
    key ∈ m.outputs.map Record.key ↔ key ∈ records.map Record.key := by
  rw [← h.isSome_get?_iff, List.mem_map, Option.isSome_iff_exists]
  constructor
  · rintro ⟨r, hr, rfl⟩
    exact ⟨r, h.mem_outputs_iff.mp hr⟩
  · rintro ⟨r, hget⟩
    have hkey := (h.combines key r hget).1.key_eq
    exact ⟨r, h.mem_outputs_iff.mpr (by rwa [hkey]), hkey⟩

theorem exists_reads (h : ∀ pair ∈ pairs, ∃ r, Reads pair r) :
    ∃ records, List.Forall₂ Reads pairs records := by
  induction pairs with
  | nil => exact ⟨[], .nil⟩
  | cons pair pairs ih =>
      obtain ⟨⟨r, hr⟩, hpairs⟩ := List.forall_mem_cons.mp h
      obtain ⟨records, hrecords⟩ := ih hpairs
      exact ⟨r :: records, .cons hr hrecords⟩

theorem map_key_of_reads (h : List.Forall₂ Reads pairs records) :
    records.map Record.key = pairs.map Prod.fst := by
  induction h with
  | nil => rfl
  | cons hread hreads ih => rw [List.map_cons, List.map_cons, ih, (isOf_of_parse hread).key_eq]

end Outputs

/-- Pairs that can all be read are merged into one statistic for each key, in ascending order of
the keys, each the sum of the figures under its key or their texts joined, and they are however
they are split into batches.  A pair that cannot be read ends the merging with the fault of its
reading, which for a text is one of value, and what came before it is merged. -/
theorem addAll_exact (pairs : List (String × Value)) :
    (∀ records, List.Forall₂ Reads pairs records →
      ∃ m, empty.addAll pairs = (.ok (), m) ∧
        (∀ batches, batches.flatten = pairs → empty.addBatches batches = (.ok (), m)) ∧
        (m.outputs.map Record.key).Pairwise (fun k l => Text.codes k < Text.codes l) ∧
        (∀ key, key ∈ m.outputs.map Record.key ↔ key ∈ pairs.map Prod.fst) ∧
        ∀ r ∈ m.outputs, r.IsOf r.key ∧ Combines (figuresOf r.key records) r.figure) ∧
      ∀ earlier m before after key v fault, (empty.addAll earlier).2 = m →
        pairs = before ++ (key, v) :: after → (∀ pair ∈ before, ∃ r, Reads pair r) →
        parse key v = .error fault →
        (m.addAll before).1 = .ok () ∧ m.addAll pairs = (.error fault, (m.addAll before).2) ∧
          fault.family ∈ v.readFaults := by
  constructor
  · intro records hreads
    obtain ⟨m, haddAll, hm⟩ := isMergeOf_empty.exists_addAll hreads
    rw [List.nil_append] at hm
    refine ⟨m, haddAll, ?_, hm.ascending, ?_, ?_⟩
    · rintro batches rfl
      rw [addBatches_eq, haddAll]
    · intro key
      rw [hm.mem_keys_iff, map_key_of_reads hreads]
    · intro r hr
      exact hm.combines r.key r (hm.mem_outputs_iff.mp hr)
  · rintro earlier m before after key v fault rfl hpairs hbefore hbad
    obtain ⟨rest, hm⟩ := isMergeOf_empty.exists_addAll_snd earlier
    obtain ⟨records, hreads⟩ := exists_reads hbefore
    obtain ⟨m', haddAll, -⟩ := hm.exists_addAll hreads
    refine ⟨congrArg Prod.fst haddAll, ?_, family_of_parse hbad⟩
    rw [hpairs, addAll_append, haddAll]
    dsimp only
    rw [addAll, add_of_error hbad]

/-- Two counts and two texts, and behind them a pair whose key names no sort. -/
theorem addAll_exact_mixed :
    ∃ m, empty.addAll [("s:x*host", .text "b"), ("l:x*n", .text "1"), ("s:x*host", .text "a"),
        ("l:x*n", .text "2")] = (.ok (), m) ∧
      (∀ r ∈ m.outputs, r.key = "l:x*n" → r.figure = .long 3) ∧
      (∀ r ∈ m.outputs, r.key = "s:x*host" → r.figure = .text "b;a") := by
  have hreads : List.Forall₂ Reads [("s:x*host", .text "b"), ("l:x*n", .text "1"),
      ("s:x*host", .text "a"), ("l:x*n", .text "2")]
      [⟨"x", "host", .text "b"⟩, .long "x" "n" 1, ⟨"x", "host", .text "a"⟩, .long "x" "n" 2] := by
    refine .cons ?_ (.cons ?_ (.cons ?_ (.cons ?_ .nil)))
    all_goals exact Outcome.eq_ok_of_toOption (by decide +kernel)
  obtain ⟨hmerged, -⟩ := addAll_exact [("s:x*host", .text "b"), ("l:x*n", .text "1"),
    ("s:x*host", .text "a"), ("l:x*n", .text "2")]
  obtain ⟨m, haddAll, -, -, -, hfigures⟩ := hmerged _ hreads
  refine ⟨m, haddAll, ?_, ?_⟩
  · intro r hr hkey
    obtain ⟨-, hcombines⟩ := hfigures r hr
    rw [hkey] at hcombines
    exact hcombines.unique (.long [1, 2] (by decide))
  · intro r hr hkey
    obtain ⟨-, hcombines⟩ := hfigures r hr
    rw [hkey] at hcombines
    exact hcombines.unique (.text ["b", "a"] (by decide))

/-- Nothing is no number, which is no fault of value. -/
theorem addAll_nothing :
    ∃ fault, parse "l:x*n" .null = .error fault ∧
      (empty.addAll [("l:x*n", .null)]).1 = .error fault ∧
      fault.family ≠ .value := by
  refine ⟨.number (.noInteger "NoneType"), rfl, rfl, ?_⟩
  decide

end Reducer

end StorageLoad
