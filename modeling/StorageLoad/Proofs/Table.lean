import Mathlib.Algebra.BigOperators.Group.List.Basic
import StorageLoad.Table

/-!
Laws of tables: look-up after a change, the ascending order of the keys, sums over all entries,
and the scan of a run of keys as a filter of all entries.
-/

namespace StorageLoad.Table

variable {κ α : Type}

section Lookup

variable [DecidableEq κ]

theorem get?_erase (t : Table κ α) (k l : κ) :
    (t.erase k).get? l = if l = k then none else t.get? l := by
  by_cases h : l = k
  · subst h
    rw [if_pos rfl]
    exact get?_erase_self t l
  · rw [if_neg h]
    exact get?_erase_of_ne t h

theorem contains_iff_mem_keys (t : Table κ α) (k : κ) : t.contains k ↔ k ∈ t.keys := by
  simp only [contains, get?, keys, Option.isSome_map, List.find?_isSome, decide_eq_true_eq,
    List.mem_map]

theorem mem_entries_of_get? {t : Table κ α} {k : κ} {v : α}
    (h : t.get? k = some v) : (k, v) ∈ t.entries := by
  obtain ⟨e, hfind, rfl⟩ := Option.map_eq_some_iff.mp h
  have hkey : e.1 = k := by simpa using List.find?_some hfind
  subst hkey
  exact List.mem_of_find?_eq_some hfind

end Lookup

section Order

variable [LT κ]

/-- The keys ascend, so that no key occurs twice. -/
def IsSorted (t : Table κ α) : Prop :=
  t.entries.Pairwise fun d e => d.1 < e.1

theorem isSorted_singleton (k : κ) (v : α) : IsSorted ⟨[(k, v)]⟩ :=
  List.pairwise_singleton _ _

theorem IsSorted.pairwise_keys {t : Table κ α} (h : t.IsSorted) : t.keys.Pairwise (· < ·) :=
  List.pairwise_map.mpr h

theorem IsSorted.erase [DecidableEq κ] {t : Table κ α} (h : t.IsSorted) (k : κ) :
    (t.erase k).IsSorted :=
  h.filter _

theorem mem_insertEntry [DecidableLT κ] {k : κ} {v : α} {e : κ × α} {es : List (κ × α)}
    (h : e ∈ insertEntry k v es) : e = (k, v) ∨ e ∈ es := by
  induction es with
  | nil => exact Or.inl (by simpa [insertEntry] using h)
  | cons d es ih =>
      obtain ⟨l, w⟩ := d
      simp only [insertEntry] at h
      split at h
      · exact List.mem_cons.mp h
      · split at h
        · rcases List.mem_cons.mp h with rfl | h
          · exact Or.inr List.mem_cons_self
          · rcases ih h with rfl | h
            · exact Or.inl rfl
            · exact Or.inr (List.mem_cons_of_mem _ h)
        · rcases List.mem_cons.mp h with rfl | h
          · exact Or.inl rfl
          · exact Or.inr (List.mem_cons_of_mem _ h)

section Strict

variable [Std.Trichotomous (α := κ) (· < ·)]

theorem eq_of_not_lt {k l : κ} (h : ¬ k < l) (h' : ¬ l < k) : k = l :=
  Std.Trichotomous.trichotomous k l h h'

variable [DecidableLT κ] [Std.Irrefl (α := κ) (· < ·)]

theorem find?_insertEntry [DecidableEq κ] (k l : κ) (v : α) (es : List (κ × α)) :
    (insertEntry k v es).find? (·.1 = l) =
      if l = k then some (k, v) else es.find? (·.1 = l) := by
  induction es with
  | nil =>
      by_cases h : l = k
      · simp [insertEntry, h]
      · simp [insertEntry, h, Ne.symm h]
  | cons d es ih =>
      obtain ⟨m, w⟩ := d
      simp only [insertEntry]
      split
      · by_cases h : l = k
        · simp [h]
        · simp [h, Ne.symm h]
      · rename_i hkm
        split
        · rename_i hmk
          have hne : m ≠ k := by
            rintro rfl
            exact Std.Irrefl.irrefl m hmk
          rw [List.find?_cons, ih, List.find?_cons]
          by_cases h : l = k
          · simp [h, hne]
          · simp [h]
        · rename_i hmk
          have hmk : m = k := eq_of_not_lt hmk hkm
          by_cases h : l = k
          · simp [h]
          · simp [h, hmk, Ne.symm h]

theorem get?_insert [DecidableEq κ] (t : Table κ α) (k l : κ) (v : α) :
    (t.insert k v).get? l = if l = k then some v else t.get? l := by
  simp only [get?, insert, find?_insertEntry]
  split <;> rfl

end Strict

section Linear

variable [DecidableLT κ] [Std.Trichotomous (α := κ) (· < ·)]
  [Trans (α := κ) (· < ·) (· < ·) (· < ·)]

theorem IsSorted.insert {t : Table κ α} (h : t.IsSorted) (k : κ) (v : α) :
    (t.insert k v).IsSorted := by
  obtain ⟨es⟩ := t
  change es.Pairwise _ at h
  change (insertEntry k v es).Pairwise _
  induction es with
  | nil => exact List.pairwise_singleton _ _
  | cons d es ih =>
      obtain ⟨l, w⟩ := d
      obtain ⟨hhead, htail⟩ := List.pairwise_cons.mp h
      simp only [insertEntry]
      split
      · rename_i hkl
        refine List.pairwise_cons.mpr ⟨?_, h⟩
        intro e he
        rcases List.mem_cons.mp he with rfl | he
        · exact hkl
        · exact Trans.trans hkl (hhead e he)
      · rename_i hkl
        split
        · rename_i hlk
          refine List.pairwise_cons.mpr ⟨?_, ih htail⟩
          intro e he
          rcases mem_insertEntry he with rfl | he
          · exact hlk
          · exact hhead e he
        · rename_i hlk
          obtain rfl : k = l := eq_of_not_lt hkl hlk
          exact List.pairwise_cons.mpr ⟨hhead, htail⟩

end Linear

theorem IsSorted.mem_entries_iff [DecidableEq κ] [Std.Irrefl (α := κ) (· < ·)] {t : Table κ α}
    (h : t.IsSorted) (k : κ) (v : α) : (k, v) ∈ t.entries ↔ t.get? k = some v := by
  refine ⟨?_, mem_entries_of_get?⟩
  obtain ⟨es⟩ := t
  change es.Pairwise _ at h
  change (k, v) ∈ es → (es.find? _).map _ = _
  intro hmem
  induction es with
  | nil => cases hmem
  | cons d es ih =>
      obtain ⟨hhead, htail⟩ := List.pairwise_cons.mp h
      rcases List.mem_cons.mp hmem with rfl | hmem
      · simp
      · have hne : d.1 ≠ k := by
          rintro rfl
          exact Std.Irrefl.irrefl d.1 (hhead (d.1, v) hmem)
        rw [List.find?_cons_of_neg (by simpa using hne)]
        exact ih htail hmem

section Sum

variable [DecidableEq κ] [Std.Irrefl (α := κ) (· < ·)] [Trans (α := κ) (· < ·) (· < ·) (· < ·)]

theorem IsSorted.get?_eq_none {k l : κ} {w : α} {es : List (κ × α)}
    (h : IsSorted ⟨(l, w) :: es⟩) (hkl : k < l) : get? ⟨(l, w) :: es⟩ k = none := by
  rw [get?, Option.map_eq_none_iff, List.find?_eq_none]
  obtain ⟨hhead, -⟩ := List.pairwise_cons.mp h
  intro e he heq
  obtain rfl : e.1 = k := of_decide_eq_true heq
  rcases List.mem_cons.mp he with rfl | he
  · exact Std.Irrefl.irrefl _ hkl
  · exact Std.Irrefl.irrefl _ (Trans.trans hkl (hhead e he) : e.1 < e.1)

theorem IsSorted.sum_insert [DecidableLT κ] [Std.Trichotomous (α := κ) (· < ·)] {M : Type}
    [AddCommMonoid M] {t : Table κ α} (h : t.IsSorted) (f : κ → α → M) (k : κ) (v : α) :
    ((t.insert k v).entries.map fun e => f e.1 e.2).sum + ((t.get? k).map (f k)).getD 0 =
      (t.entries.map fun e => f e.1 e.2).sum + f k v := by
  obtain ⟨es⟩ := t
  simp only [Table.insert]
  induction es with
  | nil => simp [insertEntry, get?]
  | cons d es ih =>
      obtain ⟨l, w⟩ := d
      simp only [insertEntry]
      split
      · rename_i hkl
        rw [h.get?_eq_none hkl]
        simp [add_comm]
      · rename_i hkl
        split
        · rename_i hlk
          have hne : l ≠ k := by
            rintro rfl
            exact Std.Irrefl.irrefl l hlk
          have hget : get? ⟨(l, w) :: es⟩ k = get? ⟨es⟩ k := by
            rw [get?, List.find?_cons_of_neg (by simpa using hne)]
            rfl
          rw [hget, List.map_cons, List.map_cons, List.sum_cons, List.sum_cons,
            add_assoc, add_assoc, ih (List.pairwise_cons.mp h).2]
        · rename_i hlk
          obtain rfl : k = l := eq_of_not_lt hkl hlk
          have hget : get? ⟨(k, w) :: es⟩ k = some w := by simp [get?]
          rw [hget, List.map_cons, List.map_cons, List.sum_cons, List.sum_cons]
          simp [add_comm, add_left_comm]

end Sum

section Ascending

variable [Std.Irrefl (α := κ) (· < ·)]

theorem lt_of_append_lt_append {l as bs : List κ} (h : l ++ as < l ++ bs) : as < bs := by
  induction l with
  | nil => exact h
  | cons k l ih =>
      rcases List.cons_lt_cons_iff.mp h with hlt | ⟨-, htail⟩
      · exact absurd hlt (Std.Irrefl.irrefl k)
      · exact ih htail

theorem nodup_of_ascending {as : List κ} (h : as.Pairwise (· < ·)) : as.Nodup := by
  refine h.imp ?_
  rintro k l hlt rfl
  exact Std.Irrefl.irrefl k hlt

theorem eq_of_ascending [Trans (α := κ) (· < ·) (· < ·) (· < ·)] {as bs : List κ}
    (ha : as.Pairwise (· < ·)) (hb : bs.Pairwise (· < ·)) (hmem : ∀ k, k ∈ as ↔ k ∈ bs) :
    as = bs := by
  have hperm : as.Perm bs :=
    (List.perm_ext_iff_of_nodup (nodup_of_ascending ha) (nodup_of_ascending hb)).mpr hmem
  refine hperm.eq_of_pairwise ?_ ha hb
  intro k l _ _ hkl hlk
  exact absurd (Trans.trans hkl hlk : k < k) (Std.Irrefl.irrefl k)

theorem IsSorted.ext [DecidableEq κ] [Trans (α := κ) (· < ·) (· < ·) (· < ·)] {t u : Table κ α}
    (ht : t.IsSorted) (hu : u.IsSorted) (h : ∀ k, t.get? k = u.get? k) : t = u := by
  have hnodup : ∀ {s : Table κ α}, s.IsSorted → s.entries.Nodup := by
    intro s hs
    refine hs.imp ?_
    rintro d e hlt rfl
    exact Std.Irrefl.irrefl d.1 hlt
  have hperm : t.entries.Perm u.entries := by
    refine (List.perm_ext_iff_of_nodup (hnodup ht) (hnodup hu)).mpr ?_
    rintro ⟨k, v⟩
    rw [ht.mem_entries_iff, hu.mem_entries_iff, h]
  have hentries : t.entries = u.entries := by
    refine hperm.eq_of_pairwise ?_ ht hu
    intro d e _ _ hde hed
    exact absurd (Trans.trans hde hed : d.1 < d.1) (Std.Irrefl.irrefl d.1)
  cases t
  cases u
  exact congrArg Table.mk hentries

end Ascending

section Scan

theorem takeWhile_eq_filter_of_pairwise {p : α → Bool} {l : List α}
    (h : l.Pairwise fun a b => p b → p a) : l.takeWhile p = l.filter p := by
  induction l with
  | nil => rfl
  | cons a l ih =>
      obtain ⟨hhead, htail⟩ := List.pairwise_cons.mp h
      by_cases ha : p a
      · rw [List.takeWhile_cons_of_pos ha, List.filter_cons_of_pos ha, ih htail]
      · rw [List.takeWhile_cons_of_neg ha, List.filter_cons_of_neg ha, eq_comm,
          List.filter_eq_nil_iff]
        intro b hb hpb
        exact ha (hhead b hb hpb)

theorem dropWhile_eq_filter_of_pairwise {p : α → Bool} {l : List α}
    (h : l.Pairwise fun a b => p b → p a) : l.dropWhile p = l.filter (! p ·) := by
  induction l with
  | nil => rfl
  | cons a l ih =>
      obtain ⟨hhead, htail⟩ := List.pairwise_cons.mp h
      by_cases ha : p a
      · rw [List.dropWhile_cons_of_pos ha, List.filter_cons_of_neg (by simp [ha]), ih htail]
      · rw [List.dropWhile_cons_of_neg ha, eq_comm, List.filter_eq_self]
        intro b hb
        rcases List.mem_cons.mp hb with rfl | hb
        · simpa using ha
        · have hpb : ¬ p b := fun hpb => ha (hhead b hb hpb)
          simpa using hpb

/-- A scan finds every key after the bound that passes the test, if with a key all those between
it and the bound pass. -/
theorem IsSorted.scanAfter_eq_filter [DecidableLT κ] [Trans (α := κ) (· < ·) (· < ·) (· < ·)]
    {t : Table κ α} (h : t.IsSorted) {bound : κ} {holds : κ → Bool}
    (hconvex : ∀ k l, bound < k → k < l → holds l → holds k) :
    t.scanAfter bound holds = t.entries.filter fun e => decide (bound < e.1) && holds e.1 := by
  have hdrop : (t.entries.dropWhile fun e => ¬ bound < e.1) =
      t.entries.filter fun e => bound < e.1 := by
    rw [dropWhile_eq_filter_of_pairwise]
    · simp
    · refine h.imp ?_
      intro d e hde he
      simp only [decide_eq_true_eq] at he ⊢
      exact fun hd => he (Trans.trans hd hde)
  rw [scanAfter, hdrop, takeWhile_eq_filter_of_pairwise, List.filter_filter]
  · simp only [Bool.and_comm]
  · rw [List.pairwise_filter]
    refine h.imp ?_
    intro d e hde hd _ he
    exact hconvex d.1 e.1 (by simpa using hd) hde he

end Scan

end Order

end StorageLoad.Table
