import StorageLoad.Proofs.Path
import StorageLoad.Store.Memory

/-!
What the operations of the service in memory do to its table: look-up after each of them, after
rows of them, and what is found below a path.
-/

namespace StorageLoad

namespace Memory

/-- The keys of the table ascend. -/
def IsSorted (m : Memory) : Prop :=
  m.entries.IsSorted

theorem isSorted_fresh (lag : Int) : (fresh lag).IsSorted :=
  Table.isSorted_singleton _ _

theorem contains_iff {m : Memory} {p : Path} : m.contains p ↔ ∃ e, m.get? p = some e :=
  Option.isSome_iff_exists

theorem mem_paths_iff {m : Memory} {p : Path} : p ∈ m.paths ↔ ∃ e, m.get? p = some e := by
  rw [paths, ← Table.contains_iff_mem_keys]
  exact Option.isSome_iff_exists

theorem get?_fresh (lag : Int) (p : Path) :
    (fresh lag).get? p = if p = ['/'] then some Entry.directory else none := by
  simp only [get?, fresh, Table.get?, List.find?_cons, List.find?_nil]
  by_cases h : p = ['/']
  · simp [h]
  · simp [h, Ne.symm h]

section Change

variable (m : Memory)

@[simp] theorem lag_put (p : Path) (e : Entry) : (m.put p e).lag = m.lag :=
  rfl

@[simp] theorem lag_erase (p : Path) : (m.erase p).lag = m.lag :=
  rfl

@[simp] theorem lag_move (source target : Path) : (m.move source target).lag = m.lag := by
  rw [move]
  split <;> rfl

theorem get?_put (p q : Path) (e : Entry) :
    (m.put p e).get? q = if q = p then some e else m.get? q :=
  Table.get?_insert m.entries p q e

theorem get?_erase (p q : Path) : (m.erase p).get? q = if q = p then none else m.get? q :=
  Table.get?_erase m.entries p q

theorem get?_move {source : Path} {e : Entry} (h : m.get? source = some e) (target q : Path) :
    (m.move source target).get? q =
      if q = target then some e else if q = source then none else m.get? q := by
  rw [move, h]
  simp only [get?_put, get?_erase]

theorem read_snd (p : Path) (length : Value) : (m.read p length).2 = m := by
  rw [read]
  split
  · rfl
  · split <;> rfl

theorem listdir_snd (p : Path) : (m.listdir p).2 = m := by
  rw [listdir]
  split <;> rfl

variable {m}

theorem IsSorted.put (h : m.IsSorted) (p : Path) (e : Entry) : (m.put p e).IsSorted :=
  Table.IsSorted.insert h p e

theorem IsSorted.erase (h : m.IsSorted) (p : Path) : (m.erase p).IsSorted :=
  Table.IsSorted.erase h p

theorem IsSorted.move (h : m.IsSorted) (source target : Path) :
    (m.move source target).IsSorted := by
  rw [Memory.move]
  split
  · exact h
  · exact (h.erase source).put target _

end Change

section Rows

theorem get?_foldl_put (ps : List Path) (e : Entry) (m : Memory) (q : Path) :
    (ps.foldl (fun m p => m.put p e) m).get? q = if q ∈ ps then some e else m.get? q := by
  induction ps generalizing m with
  | nil => simp
  | cons p ps ih =>
      rw [List.foldl_cons, ih, get?_put]
      by_cases hq : q ∈ ps
      · simp [hq]
      · by_cases hqp : q = p
        · simp [hqp]
        · simp [hq, hqp]

theorem get?_foldl_erase (ps : List Path) (m : Memory) (q : Path) :
    (ps.foldl Memory.erase m).get? q = if q ∈ ps then none else m.get? q := by
  induction ps generalizing m with
  | nil => simp
  | cons p ps ih =>
      rw [List.foldl_cons, ih, get?_erase]
      by_cases hq : q ∈ ps
      · simp [hq]
      · by_cases hqp : q = p
        · simp [hqp]
        · simp [hq, hqp]

theorem foldl_induction (inv : Memory → Prop) {step : Memory → Path → Memory}
    (hstep : ∀ m p, inv m → inv (step m p)) (ps : List Path) {m : Memory} (h : inv m) :
    inv (ps.foldl step m) := by
  induction ps generalizing m with
  | nil => exact h
  | cons p ps ih => exact ih (hstep m p h)

theorem get?_foldl_move (target : Path → Path) {ps : List Path} (hnodup : ps.Nodup)
    (hinj : ∀ p ∈ ps, ∀ q ∈ ps, target p = target q → p = q) (hout : ∀ p ∈ ps, target p ∉ ps)
    {m : Memory} (hstored : ∀ p ∈ ps, m.contains p) :
    (∀ p ∈ ps, (ps.foldl (fun m p => m.move p (target p)) m).get? (target p) = m.get? p) ∧
      ∀ q, (∀ p ∈ ps, q ≠ target p) →
        (ps.foldl (fun m p => m.move p (target p)) m).get? q = if q ∈ ps then none
          else m.get? q := by
  induction ps generalizing m with
  | nil => simp
  | cons a ps ih =>
      obtain ⟨hfresh, hnodup⟩ := List.nodup_cons.mp hnodup
      obtain ⟨e, he⟩ := contains_iff.mp (hstored a List.mem_cons_self)
      have hrest : ∀ p ∈ ps, p ≠ a ∧ p ≠ target a ∧ target p ≠ target a := by
        intro p hp
        refine ⟨fun h => hfresh (h ▸ hp), ?_, ?_⟩
        · rintro rfl
          exact hout a List.mem_cons_self (List.mem_cons_of_mem a hp)
        · intro h
          have hpa := hinj p (List.mem_cons_of_mem a hp) a List.mem_cons_self h
          exact hfresh (hpa ▸ hp)
      have hkept : ∀ p ∈ ps, (m.move a (target a)).get? p = m.get? p := by
        intro p hp
        rw [get?_move m he, if_neg (hrest p hp).2.1, if_neg (hrest p hp).1]
      obtain ⟨hmoved, hother⟩ := ih (m := m.move a (target a)) hnodup
        (fun p hp q hq => hinj p (List.mem_cons_of_mem a hp) q (List.mem_cons_of_mem a hq))
        (fun p hp hmem => hout p (List.mem_cons_of_mem a hp) (List.mem_cons_of_mem a hmem))
        (fun p hp => by
          rw [contains_iff, hkept p hp]
          exact contains_iff.mp (hstored p (List.mem_cons_of_mem a hp)))
      simp only [List.foldl_cons]
      constructor
      · intro p hp
        rcases List.mem_cons.mp hp with rfl | hp
        · rw [hother _ fun q hq heq => (hrest q hq).2.2 heq.symm, if_neg,
            get?_move m he, if_pos rfl, he]
          exact fun hmem => hout p List.mem_cons_self (List.mem_cons_of_mem p hmem)
        · rw [hmoved p hp, hkept p hp]
      · intro q hq
        rw [hother q fun p hp => hq p (List.mem_cons_of_mem a hp), get?_move m he,
          if_neg (hq a List.mem_cons_self)]
        by_cases hqa : q = a
        · simp [hqa]
        · simp [hqa]

end Rows

section Children

theorem mem_children_iff {m : Memory} (h : m.IsSorted) (p q : Path) :
    q ∈ m.children p ↔ m.contains q ∧ below p <+: q ∧ below p ≠ q := by
  have hscan : m.entries.scanAfter (below p) ((below p).isPrefixOf ·) = m.entries.entries.filter
      fun e => decide (below p < e.1) && (below p).isPrefixOf e.1 := by
    refine Table.IsSorted.scanAfter_eq_filter h ?_
    intro k l hk hkl hl
    rw [List.isPrefixOf_iff_prefix] at hl ⊢
    exact Path.isPrefix_of_lt_of_lt hk hkl hl
  rw [children, hscan, contains, Table.contains_iff_mem_keys, Table.keys, List.mem_map,
    List.mem_map]
  constructor
  · rintro ⟨e, he, rfl⟩
    obtain ⟨hmem, htest⟩ := List.mem_filter.mp he
    simp only [Bool.and_eq_true, decide_eq_true_eq, List.isPrefixOf_iff_prefix] at htest
    exact ⟨⟨e, hmem, rfl⟩, htest.2, (Path.lt_iff_ne_of_isPrefix htest.2).mp htest.1⟩
  · rintro ⟨⟨e, hmem, rfl⟩, hpre, hne⟩
    refine ⟨e, List.mem_filter.mpr ⟨hmem, ?_⟩, rfl⟩
    simp only [Bool.and_eq_true, decide_eq_true_eq, List.isPrefixOf_iff_prefix]
    exact ⟨(Path.lt_iff_ne_of_isPrefix hpre).mpr hne, hpre⟩

theorem children_pairwise {m : Memory} (h : m.IsSorted) (p : Path) :
    (m.children p).Pairwise (· < ·) := by
  refine List.Pairwise.sublist ?_ (Table.IsSorted.pairwise_keys h)
  exact ((List.takeWhile_sublist _).trans (List.dropWhile_sublist _)).map _

theorem nodup_children {m : Memory} (h : m.IsSorted) (p : Path) : (m.children p).Nodup := by
  refine (children_pairwise h p).imp ?_
  rintro q r hlt rfl
  exact Std.Irrefl.irrefl q hlt

end Children

end Memory

end StorageLoad
