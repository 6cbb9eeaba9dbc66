import StorageLoad.Proofs.Memory.Rename

/-!
What a removal takes from the service in memory and what a listing shows of it.  On a tree both
are told by the texts of the paths alone, although they rest on the order of the table: a path
goes with all that go on from it behind a slash, and a directory shows the last names of what lies
directly in it (`delete_and_listdir_exact`).
-/

namespace StorageLoad.Memory

open StorageLoad.Path

variable {m : Memory} {p : Path} {a : List Name} {name : Name}

/-- The answer that tells names. -/
def listing (names : List Name) : Reply :=
  .value (.list (names.map fun name => .text (toText name)))

theorem listing_injective : Function.Injective listing := by
  intro names names' heq
  have hmap := Value.list.inj (Reply.value.inj heq)
  refine List.map_injective_iff.mpr ?_ hmap
  intro name name' hname
  exact String.ofList_injective (Value.text.inj hname)

/-- A path is shown by a directory: joined to it, one of the names that the directory is listed
with gives the path. -/
def Shows (m : Memory) (directory p : Path) : Prop :=
  ∃ names, m.listdir directory = (.ok (listing names), m) ∧
    ∃ name ∈ names, p = directory.join name

theorem listdir_of_hasDirectory (h : m.HasDirectory p) :
    m.listdir p = (.ok (listing (m.namesBelow p)), m) := by
  obtain ⟨e, he, hdir⟩ := h
  rw [Memory.listdir, if_pos (by simp [he, hdir])]
  rfl

theorem hasDirectory_of_listdir {names : List Name} (h : m.listdir p = (.ok (listing names), m)) :
    m.HasDirectory p ∧ names = m.namesBelow p := by
  have hdir : m.HasDirectory p := by
    rw [listdir] at h
    split at h
    · rename_i hany
      exact (Option.any_eq_true _ _).mp hany
    · cases (Prod.mk.inj h).1
  rw [listdir_of_hasDirectory hdir] at h
  exact ⟨hdir, (listing_injective (Except.ok.inj (Prod.mk.inj h).1)).symm⟩

namespace IsOrderly

-- An empty name is none: joined to the top it would give the top itself.
theorem mem_namesBelow_iff_join (h : m.IsOrderly) (ha : AllProper a) :
    name ∈ m.namesBelow (ofNames a) ↔ name ≠ [] ∧ '/' ∉ name ∧
    m.contains ((ofNames a).join name) := by
  rw [h.2.mem_namesBelow_iff h.1 ha]
  constructor
  · rintro ⟨hname, hstored⟩
    rw [join_ofNames ha hname]
    exact ⟨hname.ne_nil, hname.slash_not_mem, hstored⟩
  · rintro ⟨hne, hslash, hstored⟩
    have hname : name.IsProper := by
      refine isProper_of_isNormal ha hne hslash ?_
      rw [← join_of_slash_not_mem ha hslash]
      exact h.2.isNormal hstored
    rw [join_ofNames ha hname] at hstored
    exact ⟨hname, hstored⟩

theorem delete_exact (h : m.IsOrderly) (hp : m.contains p) (hne : p ≠ ['/']) :
    ∃ m', m.delete p = (.ok .yes, m') ∧ m'.lag = m.lag ∧
      ∀ q, m'.get? q = if q = p ∨ p ++ ['/'] <+: q then none else m.get? q := by
  obtain ⟨a, ha, rfl⟩ := h.2.isNormal hp
  have hanil : a ≠ [] := by
    rintro rfl
    exact hne rfl
  obtain ⟨m', hdelete, hm'⟩ := h.2.delete h.1 ha hp
  refine ⟨m', hdelete, hm'.lag, ?_⟩
  intro q
  by_cases hq : q.IsNormal
  · obtain ⟨b, hb, rfl⟩ := hq
    have hbelow : ofNames b = ofNames a ∨ ofNames a ++ ['/'] <+: ofNames b ↔ a <+: b := by
      rw [ofNames_inj hb ha, ofNames_append_slash_isPrefix_iff ha hb hanil]
      rcases eq_or_ne b a with rfl | hab
      · simp
      · simp [hab, hab.symm]
    simp only [hbelow]
    split
    · rename_i hab
      exact hm'.gone b hb hab
    · rename_i hab
      refine hm'.other _ fun c hc hac heq => hab ?_
      rwa [(ofNames_inj hb hc).mp heq]
  · rw [h.2.get?_eq_none_of_not_isNormal hq, ite_self, hm'.other q,
      h.2.get?_eq_none_of_not_isNormal hq]
    rintro b hb - rfl
    exact hq (isNormal_ofNames hb)

theorem shows_iff (h : m.IsOrderly) (hp : m.contains p) (hne : p ≠ ['/']) (directory : Path) :
    m.Shows directory p ↔ directory = p.directory := by
  obtain ⟨names, name, hnames, rfl, hdir⟩ := (isTree_iff.mp h.2).2 p hp hne
  obtain ⟨hup, hname⟩ := allProper_append_singleton.mp hnames
  rw [directory_ofNames hnames]
  constructor
  · rintro ⟨listed, hlist, last, hlast, heq⟩
    obtain ⟨hdir', rfl⟩ := hasDirectory_of_listdir hlist
    obtain ⟨a, ha, rfl⟩ := h.2.isNormal hdir'.contains
    have hproper := ((h.2.mem_namesBelow_iff h.1 ha).mp hlast).1
    have hall := allProper_append_singleton.mpr ⟨ha, hproper⟩
    rw [join_ofNames ha hproper, ofNames_inj hnames hall] at heq
    rw [(List.append_inj' heq rfl).1]
  · rintro rfl
    refine ⟨_, listdir_of_hasDirectory hdir, name, ?_, (join_ofNames hup hname).symm⟩
    exact (h.2.mem_namesBelow_iff h.1 hup).mpr ⟨hname, hp⟩

end IsOrderly

/-- On a tree, a stored path other than the top is removed with the paths that go on from it
behind a slash and without any other; a directory is listed with the names under which something
is stored in it, each once and ascending; and what is stored is shown by its parent alone. -/
theorem delete_and_listdir_exact (h : m.IsOrderly) (hp : m.contains p) :
    (p ≠ ['/'] → ∃ m', m.delete p = (.ok .yes, m') ∧ m'.lag = m.lag ∧
      ∀ q, m'.get? q = if q = p ∨ p ++ ['/'] <+: q then none else m.get? q) ∧
    (m.HasDirectory p → ∃ names, m.listdir p = (.ok (listing names), m) ∧ names.Pairwise (· < ·) ∧
      ∀ name, name ∈ names ↔ name ≠ [] ∧ '/' ∉ name ∧ m.contains (p.join name)) ∧
    (p ≠ ['/'] → ∀ directory, m.Shows directory p ↔ directory = p.directory) := by
  refine ⟨h.delete_exact hp, ?_, h.shows_iff hp⟩
  intro hdir
  obtain ⟨a, ha, rfl⟩ := h.2.isNormal hp
  refine ⟨_, listdir_of_hasDirectory hdir, namesBelow_ascending h.1 _, ?_⟩
  exact fun name => h.mem_namesBelow_iff_join ha

/-- A directory with a directory in it, beside two that begin with its name. -/
theorem delete_and_listdir_exact_neighbours : ∃ answers m m' names,
    Storage.serve neighbours (fresh 2) = some (answers, m) ∧ m.IsOrderly ∧
      m.contains (ofNames [['a']]) ∧ m.delete (ofNames [['a']]) = (.ok .yes, m') ∧
      m'.get? (ofNames [['a'], ['x'], ['f']]) = none ∧
      m'.get? (ofNames [['a', '0']]) = m.get? (ofNames [['a', '0']]) ∧
      m.listdir (ofNames [['a']]) = (.ok (listing names), m) ∧ ['x'] ∈ names ∧ ['f'] ∉ names ∧
      m.Shows (ofNames []) (ofNames [['a']]) := by
  obtain ⟨answers, m, hserve, hm⟩ := Storage.exists_serve IsOrderly Request.RespectsTree
    (fun request m hm hr => hm.exists_answer hr) respectsTree_of_mem_neighbours
    ⟨isSorted_fresh 2, isTree_fresh 2⟩
  have hlook : (Storage.serve neighbours (fresh 2)).map (fun result =>
      (((result.2.get? (ofNames [['a']])).map (·.isDirectory)),
        result.2.contains (ofNames [['a'], ['x']]), result.2.contains (ofNames [['a'], ['f']]))) =
      some (some true, true, false) := by
    decide +kernel
  rw [hserve] at hlook
  simp only [Option.map_some, Option.some.injEq, Prod.mk.injEq] at hlook
  obtain ⟨hself, hlisted, hmissing⟩ := hlook
  have hdir : m.HasDirectory (ofNames [['a']]) := Option.map_eq_some_iff.mp hself
  obtain ⟨hdelete, hlist, hshows⟩ := delete_and_listdir_exact hm hdir.contains
  obtain ⟨m', hm', -, hget⟩ := hdelete (by decide)
  obtain ⟨names, hnames, -, hmem⟩ := hlist hdir
  refine ⟨answers, m, m', names, hserve, hm, hdir.contains, hm', ?_, ?_, hnames, ?_, ?_, ?_⟩
  · rw [hget, if_pos (by decide)]
  · rw [hget, if_neg (by decide)]
  · exact (hmem _).mpr ⟨by decide, by decide, hlisted⟩
  · rw [hmem]
    rintro ⟨-, -, hstored⟩
    exact absurd (hmissing.symm.trans hstored) Bool.false_ne_true
  · exact (hshows (by decide) _).mpr (by decide)

end StorageLoad.Memory
