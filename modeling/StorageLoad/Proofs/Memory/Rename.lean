import StorageLoad.Proofs.Memory.Edits
import StorageLoad.Proofs.Memory.Reachable

/-!
What a rename does to the service in memory, told by paths.  What is stored at the source and
below it goes to the same place at the target, the missing directories above the target are made,
and every other path is as it was, those that begin like the source among them (`rename_exact`).
-/

namespace StorageLoad

namespace Path

/-- How the path of something goes on that is stored at a path or below it. -/
def IsTail (s : Path) : Prop :=
  s = [] ∨ s.head? = some '/'

theorem isTail_stem (names : List Name) : (stem names).IsTail := by
  cases names with
  | nil => exact Or.inl rfl
  | cons name names => exact Or.inr rfl

theorem ofNames_append_stem {a : List Name} (ha : a ≠ []) (c : List Name) :
    ofNames a ++ stem c = ofNames (a ++ c) := by
  rw [ofNames_of_ne_nil ha, ofNames_of_ne_nil (by simp [ha]), stem_append]

theorem exists_of_isNormal_append {a : List Name} (ha : AllProper a) (hnil : a ≠ []) {s : Path}
    (hs : s.IsTail) (h : IsNormal (ofNames a ++ s)) : ∃ c, AllProper (a ++ c) ∧ s = stem c := by
  cases s with
  | nil => exact ⟨[], by rwa [List.append_nil], rfl⟩
  | cons first rest =>
      obtain ⟨d, hd, heq⟩ := h
      obtain rfl : first = '/' := Option.some.inj (hs.resolve_left (List.cons_ne_nil _ _))
      have hpre : ofNames a ++ ['/'] <+: ofNames d := by
        rw [← heq]
        exact (List.prefix_append_right_inj _).mpr (List.prefix_append ['/'] rest)
      obtain ⟨⟨c, rfl⟩, -⟩ := (ofNames_append_slash_isPrefix_iff ha hd hnil).mp hpre
      refine ⟨c, hd, (List.append_right_inj (ofNames a)).mp ?_⟩
      rw [heq, ofNames_append_stem hnil]

theorem mem_ancestors_ofNames_iff {names : List Name} (h : AllProper names) {p : Path} :
    p ∈ ancestors (ofNames names) ↔ ∃ b, b <+: names ∧ p = ofNames b := by
  induction names using List.reverseRecOn with
  | nil => simp [ancestors_slash]
  | append_singleton names name ih =>
      rw [ancestors_ofNames h, List.mem_cons, ih (allProper_append_singleton.mp h).1]
      constructor
      · rintro (rfl | ⟨b, hb, rfl⟩)
        · exact ⟨names ++ [name], List.prefix_rfl, rfl⟩
        · exact ⟨b, hb.trans (List.prefix_append _ _), rfl⟩
      · rintro ⟨b, hb, rfl⟩
        rcases List.prefix_concat_iff.mp hb with rfl | hb
        · exact Or.inl rfl
        · exact Or.inr ⟨b, hb, rfl⟩

end Path

namespace Memory

open StorageLoad.Path

variable {m m' grown : Memory} {source target : Path} {a names : List Name} {name : Name}

/-- What the service is after what is stored at one path and below it has gone to another. -/
structure Renamed (m : Memory) (source target : Path) (m' : Memory) : Prop where
  lag : m'.lag = m.lag
  onto : ∀ s, s.IsTail → m'.get? (target ++ s) = m.get? (source ++ s)
  off : ∀ s, s.IsTail → m'.get? (source ++ s) = none
  made : ∀ p ∈ target.directory.ancestors, ¬ m.contains p → m'.get? p = some Entry.directory
  other : ∀ p, (∀ s, s.IsTail → p ≠ source ++ s ∧ p ≠ target ++ s) →
    (p ∈ target.directory.ancestors → m.contains p) → m'.get? p = m.get? p

theorem IsTree.isOpen_of_find? (h : m.IsTree) (hnames : AllProper names) {base : Path}
    (hbase : (ofNames names).ancestors.find? m.contains = some base)
    (hdir : m.HasDirectory base) :
    m.IsOpen names := by
  by_contra hclosed
  obtain ⟨p, hfails⟩ := makeDirectories_of_not_isOpen h.hasParents hnames hclosed
  obtain ⟨e, he, hdir⟩ := hdir
  rw [makeDirectories, if_neg (by simp [isAbsolute_ofNames]), hbase] at hfails
  simp [he, hdir] at hfails

theorem Moved.renamed (hm' : m.Moved grown a (names ++ [name]) m') (h : m.IsTree)
    (hafter : m'.IsTree) (hgrown : m.Grown names grown) (ha : AllProper a) (hanil : a ≠ [])
    (hnames : AllProper (names ++ [name])) (hbelow : ¬ a <+: names ++ [name]) :
    m.Renamed (ofNames a) (ofNames (names ++ [name])) m' := by
  have hup := (allProper_append_singleton.mp hnames).1
  have hne : names ++ [name] ≠ [] := by simp
  constructor
  · exact hm'.lag
  · intro s hs
    by_cases hnormal : IsNormal (ofNames (names ++ [name]) ++ s)
    · obtain ⟨c, hc, rfl⟩ := exists_of_isNormal_append hnames hne hs hnormal
      rw [ofNames_append_stem hne, ofNames_append_stem hanil, hm'.onto c hc]
    · rw [hafter.get?_eq_none_of_not_isNormal hnormal, h.get?_eq_none_of_not_isNormal]
      intro hnormal'
      obtain ⟨c, hc, rfl⟩ := exists_of_isNormal_append ha hanil hs hnormal'
      rw [ofNames_append_stem hne] at hnormal
      exact hnormal (isNormal_ofNames (allProper_append_of_append hnames hc))
  · intro s hs
    by_cases hnormal : IsNormal (ofNames a ++ s)
    · obtain ⟨c, hc, rfl⟩ := exists_of_isNormal_append ha hanil hs hnormal
      rw [ofNames_append_stem hanil, hm'.off c hc]
    · exact hafter.get?_eq_none_of_not_isNormal hnormal
  · intro p hp hfree
    rw [directory_ofNames hnames] at hp
    obtain ⟨b, hb, rfl⟩ := (mem_ancestors_ofNames_iff hup).mp hp
    have hproper := hup.of_isPrefix hb
    rw [hm'.other, hgrown.made b hb (not_contains_iff.mp hfree)]
    · intro c hc heq
      rw [ofNames_inj hproper hc] at heq
      exact hbelow (((List.prefix_append a c).trans (heq ▸ hb)).trans (List.prefix_append _ _))
    · intro c hc heq
      rw [ofNames_inj hproper hc] at heq
      exact not_append_singleton_isPrefix names name ((List.prefix_append _ c).trans (heq ▸ hb))
  · intro p haway habove
    rw [hm'.other]
    · by_cases hway : ∃ b, b <+: names ∧ p = ofNames b
      · rw [directory_ofNames hnames] at habove
        obtain ⟨e, he⟩ := contains_iff.mp (habove ((mem_ancestors_ofNames_iff hup).mpr hway))
        rw [hgrown.kept p e he, he]
      · exact hgrown.other p fun b hb heq => hway ⟨b, hb, heq⟩
    · intro c _ heq
      rw [← ofNames_append_stem hanil] at heq
      exact (haway (stem c) (isTail_stem c)).1 heq
    · intro c _ heq
      rw [← ofNames_append_stem hne] at heq
      exact (haway (stem c) (isTail_stem c)).2 heq

/-- A rename moves what is stored at the source and below it, and nothing else.  Whatever calls
have been made, if the stored paths are a tree, then a source that is stored and is not the top
can go to every target that is free, does not lie below it, and whose lowest stored path above is
a directory. -/
theorem rename_exact {lag : Int} {requests : List Request}
    {answers : List (Except StoreFault Reply)}
    (hserve : Storage.serve requests (fresh lag) = some (answers, m)) (h : m.IsTree)
    (hsource : source.IsNormal) (htarget : target.IsNormal) (hstored : m.contains source)
    (htop : source ≠ ['/']) (hfree : ¬ m.contains target) (hbelow : ¬ source ++ ['/'] <+: target)
    (hbase : ∃ base, target.directory.ancestors.find? m.contains = some base ∧
      m.HasDirectory base) :
    ∃ m', m.rename source target = some (.ok .yes, m') ∧ m.Renamed source target m' := by
  obtain ⟨a, ha, rfl⟩ := hsource
  obtain ⟨names, hnames, rfl⟩ := htarget
  have hanil : a ≠ [] := by
    rintro rfl
    exact htop rfl
  cases names using List.reverseRecOn with
  | nil => exact absurd (HasDirectory.contains h.root) hfree
  | append_singleton names name =>
      have hup := (allProper_append_singleton.mp hnames).1
      obtain ⟨base, hfind, hdir⟩ := hbase
      rw [directory_ofNames hnames] at hfind
      have hopen := h.isOpen_of_find? hup hfind hdir
      have hnot : ¬ a <+: names ++ [name] :=
        not_isPrefix_of_not_below ha hnames hanil (fun heq => hfree (heq ▸ hstored)) hbelow
      obtain ⟨grown, m', hgrown, hrename, hm'⟩ :=
        h.rename (isSorted_of_serve hserve) ha hstored hnames hfree hnot hopen
      have hafter := hm'.isTree h hgrown hopen ha hanil hnames hnot
      exact ⟨m', hrename, hm'.renamed h hafter hgrown ha hanil hnames hnot⟩

/-- A directory with a file below it, beside two that begin with its name. -/
def neighbours : List Request :=
  [.create (ofNames [['a'], ['x'], ['f']]) [1, 2] (.int 3) (.int 64),
    .create (ofNames [['a', '0']]) [3] (.int 1) (.int 64),
    .mkdirs (ofNames [['a', '-', 'x'], ['y']]),
    .setReplication (ofNames [['a'], ['x'], ['f']]) (.int 2)]

theorem respectsTree_of_mem_neighbours : ∀ request ∈ neighbours, request.RespectsTree := by
  intro request hrequest
  simp only [neighbours, List.mem_cons, List.not_mem_nil, or_false] at hrequest
  rcases hrequest with rfl | rfl | rfl | rfl
  all_goals exact ⟨_, by decide, rfl⟩

/-- It goes down two directories that are made for it, and its neighbours stay. -/
theorem rename_exact_neighbours :
    ∃ answers m m', Storage.serve neighbours (fresh 2) = some (answers, m) ∧
    m.rename (ofNames [['a']]) (ofNames [['b'], ['c'], ['d']]) = some (.ok .yes, m') ∧
    m.Renamed (ofNames [['a']]) (ofNames [['b'], ['c'], ['d']]) m' ∧
    m'.get? (ofNames [['b'], ['c'], ['d'], ['x'], ['f']]) =
      m.get? (ofNames [['a'], ['x'], ['f']]) ∧
    m'.get? (ofNames [['b'], ['c']]) = some Entry.directory ∧
    m'.get? (ofNames [['a', '0']]) = m.get? (ofNames [['a', '0']]) := by
  obtain ⟨answers, m, hserve, hm⟩ := Storage.exists_serve IsOrderly Request.RespectsTree
    (fun request m hm hr => hm.exists_answer hr) respectsTree_of_mem_neighbours
    ⟨isSorted_fresh 2, isTree_fresh 2⟩
  have hlook : (Storage.serve neighbours (fresh 2)).map (fun result =>
      (result.2.contains (ofNames [['a']]), result.2.contains (ofNames [['b'], ['c'], ['d']]),
        result.2.contains (ofNames [['b'], ['c']]),
        (ofNames [['b'], ['c'], ['d']]).directory.ancestors.find? result.2.contains)) =
      some (true, false, false, some ['/']) := by
    decide +kernel
  rw [hserve] at hlook
  simp only [Option.map_some, Option.some.injEq, Prod.mk.injEq] at hlook
  obtain ⟨hstored, hfree, hmissing, hbase⟩ := hlook
  obtain ⟨m', hrename, hrenamed⟩ := rename_exact hserve hm.2 (isNormal_ofNames (by decide))
    (isNormal_ofNames (by decide)) hstored (by decide) (by rw [hfree]; decide) (by decide)
    ⟨_, hbase, hm.2.root⟩
  refine ⟨answers, m, m', hserve, hrename, hrenamed, ?_, ?_, ?_⟩
  · exact hrenamed.onto (ofNames [['x'], ['f']]) (Or.inr rfl)
  · exact hrenamed.made _ (by decide +kernel) (by rw [hmissing]; decide)
  · refine hrenamed.other _ ?_ (fun habove => absurd habove (by decide +kernel))
    intro s hs
    constructor
    · intro heq
      obtain rfl : s = ['0'] := (List.append_right_inj (ofNames [['a']])).mp heq.symm
      simp [IsTail] at hs
    · intro heq
      simp [ofNames, stem] at heq

end Memory

end StorageLoad
