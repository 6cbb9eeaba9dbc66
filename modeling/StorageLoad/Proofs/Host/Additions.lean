import StorageLoad.Proofs.Host

/-!
What the making of directories adds to a tree, however it ends.  Any names may be walked, `..`
among them, and a failure leaves what has been made until then: the tree stays one, and nothing
but directories is new (`IsTree.extended_makeDirectories`).  Along proper names the new ones lie
on the way to the place that was to be made, and there are none if something is in the way
(`IsTree.get?_eq_of_makeDirectories_error`).
-/

namespace StorageLoad.Host.Tree

variable {t t' t'' : Tree} {base here place goal : Place} {names a : List Name} {name : Name}
  {P Q : Place → Prop}

section Walk

theorem IsTree.seated_of_isPrefix (h : t.IsTree) (hb : t.contains goal) (hpre : place <+: goal) :
    t.Seated place := by
  rintro p n rfl
  refine h.directory_of_isPrefix hb ((List.prefix_append p [n]).trans hpre) ?_
  rintro rfl
  exact not_append_singleton_isPrefix p n hpre

theorem IsTree.seated_step (h : t.IsTree) (hhere : t.get? here = some .directory) (name : Name) :
    t.Seated (step here name) := by
  have hcontains := contains_of_get? hhere
  rw [step]
  split
  · exact h.seated_of_isPrefix hcontains List.prefix_rfl
  · split
    · exact h.seated_of_isPrefix hcontains (List.dropLast_prefix here)
    · exact seated_append hhere name

theorem IsTree.seated_of_walk (h : t.IsTree) (hhere : names = [] → t.Seated here)
    (hwalk : t.walk here names = .ok place) : t.Seated place := by
  induction names generalizing here with
  | nil =>
      rw [walk] at hwalk
      exact Except.ok.inj hwalk ▸ hhere rfl
  | cons name names ih =>
      obtain ⟨hdir, -, hrest⟩ := walk_cons_eq_ok_iff.mp hwalk
      exact ih (fun _ => h.seated_step hdir name) hrest

theorem isPrefix_of_walk_eq_ok (hnames : AllProper names) (ha : a <+: names)
    (hwalk : t.walk base a = .ok place) : place <+: base ++ names := by
  rw [eq_of_walk_eq_ok (hnames.of_isPrefix ha) hwalk]
  exact (List.prefix_append_right_inj base).mpr ha

end Walk

/-- What the tree is after directories have been made at places of a sort. -/
structure Extended (t : Tree) (P : Place → Prop) (t' : Tree) : Prop where
  isTree : t'.IsTree
  kept_or_made : ∀ p, t'.get? p = t.get? p ∨ (t.get? p = none ∧ t'.get? p = some .directory ∧ P p)

namespace Extended

theorem refl (h : t.IsTree) : t.Extended P t :=
  ⟨h, fun _ => Or.inl rfl⟩

theorem mono (h : t.Extended P t') (hPQ : ∀ p, P p → Q p) : t.Extended Q t' :=
  ⟨h.isTree, fun p => (h.kept_or_made p).imp_right fun hp => ⟨hp.1, hp.2.1, hPQ p hp.2.2⟩⟩

theorem get?_of_some (h : t.Extended P t') {node : Node} (hnode : t.get? place = some node) :
    t'.get? place = some node := by
  rcases h.kept_or_made place with heq | ⟨hnone, -⟩
  · rw [heq, hnode]
  · rw [hnode] at hnone
    cases hnone

theorem seated (h : t.Extended P t') (hplace : t.Seated place) : t'.Seated place :=
  fun p name heq => h.get?_of_some (hplace p name heq)

theorem trans (h : t.Extended P t') (h' : t'.Extended P t'') : t.Extended P t'' := by
  refine ⟨h'.isTree, ?_⟩
  intro p
  rcases h'.kept_or_made p with heq' | ⟨hnone', hmade', hp⟩
  · rw [heq']
    exact h.kept_or_made p
  · rcases h.kept_or_made p with heq | ⟨-, hmade, -⟩
    · exact Or.inr ⟨heq ▸ hnone', hmade', hp⟩
    · rw [hmade] at hnone'
      cases hnone'

theorem locate (h : t.Extended P t') (hlocate : t.locate base names = .ok place) :
    t'.locate base names = .ok place := by
  rw [locate_eq_ok_iff] at hlocate ⊢
  refine ⟨hlocate.1, ?_⟩
  have hwalk := hlocate.2
  clear hlocate
  induction names generalizing base with
  | nil => exact hwalk
  | cons name names ih =>
      rw [walk_cons_eq_ok_iff] at hwalk ⊢
      exact ⟨h.get?_of_some hwalk.1, hwalk.2.1, ih hwalk.2.2⟩

end Extended

section Directories

theorem makeDirectory_eq_ok_iff : t.makeDirectory base names = .ok t' ↔
    ∃ place, t.locate base names = .ok place ∧ ((t.get? place = some .directory ∧ t' = t) ∨
      (t.get? place = none ∧ t' = t.insert place .directory)) := by
  rw [makeDirectory]
  cases t.locate base names with
  | error cause => simp [bind, Except.bind]
  | ok place =>
      simp only [bind, Except.bind, Except.ok.injEq, exists_eq_left']
      cases t.get? place with
      | none => simp [pure, Except.pure, eq_comm]
      | some node =>
          cases node with
          | file data => simp [throw, throwThe, MonadExceptOf.throw]
          | directory => simp [pure, Except.pure, eq_comm]

theorem IsTree.extended_makeDirectory (h : t.IsTree) (hbase : t.Seated base)
    (hP : ∀ place, t.walk base names = .ok place → P place)
    (hmake : t.makeDirectory base names = .ok t') :
    t.Extended P t' := by
  obtain ⟨place, hlocate, ⟨-, rfl⟩ | ⟨hnone, rfl⟩⟩ := makeDirectory_eq_ok_iff.mp hmake
  · exact .refl h
  · have hwalk := (locate_eq_ok_iff.mp hlocate).2
    refine ⟨h.insert_of_seated (h.seated_of_walk (fun _ => hbase) hwalk) (Or.inl rfl), ?_⟩
    intro p
    rw [get?_insert]
    split
    · rename_i heq
      exact Or.inr ⟨heq ▸ hnone, rfl, heq ▸ hP place hwalk⟩
    · exact Or.inl rfl

theorem directory_of_makeDirectory (hnames : AllProper names)
    (hmake : t.makeDirectory base names = .ok t') :
    t'.get? (base ++ names) = some .directory := by
  obtain ⟨place, hlocate, hplace⟩ := makeDirectory_eq_ok_iff.mp hmake
  rw [← eq_of_walk_eq_ok hnames (locate_eq_ok_iff.mp hlocate).2]
  rcases hplace with ⟨hdir, rfl⟩ | ⟨-, rfl⟩
  · exact hdir
  · rw [get?_insert, if_pos rfl]

theorem finish_makeDirectory (t : Tree) (base : Place) (names : List Name) :
    (∃ t', t.makeDirectory base names = .ok t' ∧
      makeBelow.finish t (t.makeDirectory base names) = (.ok (), t')) ∨
      ∃ cause, makeBelow.finish t (t.makeDirectory base names) = (.error cause, t) := by
  cases t.makeDirectory base names with
  | ok t' => exact Or.inl ⟨t', rfl, rfl⟩
  | error cause => exact Or.inr ⟨cause, rfl⟩

theorem makeBelow_cases (t : Tree) (base : Place) (names : List Name) (name : Name) :
    (∃ u t', (u = t ∨ t.makeBelow base names.reverse = (.ok (), u)) ∧
      u.makeDirectory base (names ++ [name]) = .ok t' ∧
        t.makeBelow base (names ++ [name]).reverse = (.ok (), t')) ∨
    (∃ u cause, (u = t ∨ u = (t.makeBelow base names.reverse).2) ∧
      t.makeBelow base (names ++ [name]).reverse = (.error cause, u)) ∨
    (name = current ∧ ∃ u, t.makeBelow base names.reverse = (.ok (), u) ∧
      t.makeBelow base (names ++ [name]).reverse = (.ok (), u)) := by
  rw [List.reverse_append, List.reverse_singleton, List.singleton_append, makeBelow,
    List.reverse_reverse]
  split
  · rcases finish_makeDirectory t base (names ++ [name])
      with ⟨t', hmake, hfinish⟩ | ⟨cause, hfinish⟩
    · exact Or.inl ⟨t, t', Or.inl rfl, hmake, hfinish⟩
    · exact Or.inr (Or.inl ⟨t, cause, Or.inl rfl, hfinish⟩)
  · rcases hbelow : t.makeBelow base names.reverse with ⟨cause | _, u⟩
    · exact Or.inr (Or.inl ⟨u, cause, Or.inr rfl, rfl⟩)
    · by_cases hcurrent : name = current
      · exact Or.inr (Or.inr ⟨hcurrent, u, rfl, by simp [hcurrent]⟩)
      · simp only [hcurrent, if_false]
        rcases finish_makeDirectory u base (names ++ [name])
          with ⟨t', hmake, hfinish⟩ | ⟨cause, hfinish⟩
        · exact Or.inl ⟨u, t', Or.inr rfl, hmake, hfinish⟩
        · exact Or.inr (Or.inl ⟨u, cause, Or.inr rfl, hfinish⟩)

theorem IsTree.extended_makeBelow (h : t.IsTree) (hbase : t.Seated base)
    (hP : ∀ (u : Tree) (a : List Name) (place : Place), a <+: names →
      u.walk base a = .ok place → P place) :
    t.Extended P (t.makeBelow base names.reverse).2 := by
  induction names using List.reverseRecOn with
  | nil =>
      rw [List.reverse_nil, Tree.makeBelow]
      rcases finish_makeDirectory t base [] with ⟨t', hmake, hfinish⟩ | ⟨cause, hfinish⟩
      · rw [hfinish]
        exact h.extended_makeDirectory hbase (fun place => hP t [] place List.prefix_rfl) hmake
      · rw [hfinish]
        exact .refl h
  | append_singleton names name ih =>
      have ih := ih fun u a place ha => hP u a place (ha.trans (List.prefix_append names [name]))
      rcases makeBelow_cases t base names name with
        ⟨u, t', hu, hmake, heq⟩ | ⟨u, cause, hu, heq⟩ | ⟨-, u, hu, heq⟩
      · have hext : t.Extended P u := by
          rcases hu with rfl | hu
          · exact .refl h
          · rwa [hu] at ih
        rw [heq]
        exact hext.trans (hext.isTree.extended_makeDirectory (hext.seated hbase)
          (fun place => hP u _ place List.prefix_rfl) hmake)
      · rw [heq]
        rcases hu with rfl | rfl
        · exact .refl h
        · exact ih
      · rw [heq]
        rwa [hu] at ih

theorem directory_of_makeBelow (hnames : AllProper names)
    (hmake : t.makeBelow base names.reverse = (.ok (), t')) :
    t'.get? (base ++ names) = some .directory := by
  cases names using List.reverseRecOn with
  | nil =>
      rw [List.reverse_nil, Tree.makeBelow] at hmake
      rcases finish_makeDirectory t base [] with ⟨u, hu, hfinish⟩ | ⟨cause, hfinish⟩
      · rw [hfinish] at hmake
        obtain ⟨-, rfl⟩ := Prod.mk.inj hmake
        exact directory_of_makeDirectory hnames hu
      · rw [hfinish] at hmake
        cases hmake
  | append_singleton names name =>
      rcases makeBelow_cases t base names name with
        ⟨u, u', -, hu, heq⟩ | ⟨u, cause, -, heq⟩ | ⟨hcurrent, -⟩
      · rw [heq] at hmake
        obtain ⟨-, rfl⟩ := Prod.mk.inj hmake
        exact directory_of_makeDirectory hnames hu
      · rw [heq] at hmake
        cases hmake
      · have hdots := (allProper_append_singleton.mp hnames).2.not_dots
        rw [isDots, hcurrent] at hdots
        cases hdots

/-- Directories are made from a place once that is there; if it is missing, it is made first. -/
theorem IsTree.makeDirectories_cases (h : t.IsTree) (hbase : AllProper base) (names : List Name) :
    ∃ u, t.Extended (· <+: base) u ∧
      ((∃ cause, t.makeDirectories base names = (.error cause, u)) ∨
        (u.contains base ∧ t.makeDirectories base names = u.makeBelow base names)) := by
  by_cases hcontains : t.contains base
  · exact ⟨t, .refl h, Or.inr ⟨hcontains, makeDirectories_of_contains hcontains names⟩⟩
  · have hext : t.Extended (· <+: base) (t.makeBelow [] base.reverse).2 :=
      h.extended_makeBelow seated_nil fun _ _ _ => isPrefix_of_walk_eq_ok hbase
    refine ⟨_, hext, ?_⟩
    rw [Tree.makeDirectories, if_neg hcontains]
    rcases hmake : t.makeBelow [] base.reverse with ⟨cause | _, u⟩
    · exact Or.inl ⟨cause, rfl⟩
    · exact Or.inr ⟨contains_of_get? (directory_of_makeBelow hbase hmake), rfl⟩

theorem IsTree.extended_makeDirectories (h : t.IsTree) (hbase : AllProper base)
    (hway : ∀ p, p <+: base → P p)
    (hP : ∀ (u : Tree) (a : List Name) (place : Place), a <+: names →
      u.walk base a = .ok place → P place) :
    t.Extended P (t.makeDirectories base names.reverse).2 := by
  obtain ⟨u, hext, ⟨cause, heq⟩ | ⟨hcontains, heq⟩⟩ := h.makeDirectories_cases hbase names.reverse
  · rw [heq]
    exact hext.mono hway
  · rw [heq]
    exact (hext.mono hway).trans (hext.isTree.extended_makeBelow
      (hext.isTree.seated_of_isPrefix hcontains List.prefix_rfl) hP)

end Directories

end StorageLoad.Host.Tree
