import StorageLoad.Proofs.Path
import StorageLoad.Proofs.Table
import StorageLoad.Store.Host

/-!
What the operations of a host do to its file tree, as far as proper names are concerned that the
host accepts: names lead where they say, directories are made down along names, and a file can be
written, removed and moved without anything else being touched.
-/

namespace StorageLoad.Host

/-- A host can hold the names, and the text of the place below `base` that they lead to. -/
def Accepts (base : Place) (names : List Name) : Prop :=
  checkText base names = .ok () ∧ ∀ name ∈ names, nameSize name ≤ nameLimit

section Accepts

variable {base : Place} {a b names : List Name}

theorem textSize_append (a b : Place) : textSize (a ++ b) = textSize a + textSize b := by
  induction a with
  | nil => exact (Nat.zero_add _).symm
  | cons name a ih =>
      simp only [textSize, List.cons_append, List.map_cons, List.foldr_cons] at ih ⊢
      omega

theorem checkText_eq_ok_iff : checkText base names = .ok () ↔
    names.all (·.all isUsable) ∧ textSize (base ++ names) ≤ pathLimit := by
  rw [checkText]
  by_cases husable : names.all (·.all isUsable)
  · by_cases hsize : pathLimit < textSize (base ++ names)
    · simp [husable, hsize]
    · simp [husable, hsize, Nat.le_of_not_lt hsize]
  · simp [husable]

instance : Decidable (Accepts base names) :=
  decidable_of_iff ((names.all (·.all isUsable) ∧ textSize (base ++ names) ≤ pathLimit) ∧
    ∀ name ∈ names, nameSize name ≤ nameLimit) (and_congr_left' checkText_eq_ok_iff.symm)

theorem Accepts.of_isPrefix (h : Accepts base b) (hab : a <+: b) : Accepts base a := by
  obtain ⟨hcheck, hsize⟩ := h
  obtain ⟨husable, hlength⟩ := checkText_eq_ok_iff.mp hcheck
  obtain ⟨rest, rfl⟩ := hab
  rw [List.all_append, Bool.and_eq_true] at husable
  rw [← List.append_assoc, textSize_append] at hlength
  refine ⟨checkText_eq_ok_iff.mpr ⟨husable.1, by omega⟩, ?_⟩
  exact fun name hname => hsize name (List.mem_append_left rest hname)

end Accepts

namespace Tree

variable {t t' : Tree} {base here place : Place} {a b names : List Name} {name : Name}

/-- A sorted tree in which everything lies in a directory. -/
structure IsTree (t : Tree) : Prop where
  sorted : t.IsSorted
  parent : ∀ place name, t.contains (place ++ [name]) → t.get? place = some .directory

theorem contains_iff : t.contains place ↔ ∃ node, t.get? place = some node :=
  Option.isSome_iff_exists

theorem contains_of_get? {node : Node} (h : t.get? place = some node) : t.contains place :=
  contains_iff.mpr ⟨node, h⟩

theorem IsTree.directory_of_isPrefix (h : t.IsTree) (hb : t.contains b) (hab : a <+: b)
    (hne : a ≠ b) : t.get? a = some .directory := by
  induction b using List.reverseRecOn with
  | nil => exact absurd (List.prefix_nil.mp hab) hne
  | append_singleton b name ih =>
      have hparent := h.parent b name hb
      rcases List.prefix_concat_iff.mp hab with heq | hab
      · exact absurd heq hne
      · rcases eq_or_ne a b with rfl | hne
        · exact hparent
        · exact ih (contains_of_get? hparent) hab hne

theorem IsTree.directory_below (h : t.IsTree) (hb : t.contains (base ++ b)) (hab : a <+: b)
    (hne : a ≠ b) : t.get? (base ++ a) = some .directory := by
  refine h.directory_of_isPrefix hb ((List.prefix_append_right_inj base).mpr hab) ?_
  intro heq
  exact hne (List.append_cancel_left heq)

theorem IsTree.eq_of_isPrefix_of_file (h : t.IsTree) {data : Bytes}
    (ha : t.get? a = some (.file data)) (hb : t.contains b) (hab : a <+: b) : a = b := by
  by_contra hne
  rw [h.directory_of_isPrefix hb hab hne] at ha
  cases ha

theorem get?_bare (place : Place) : bare.get? place = if place = [] then some .directory
    else none := by
  simp only [bare, Table.get?, List.find?_cons, List.find?_nil]
  by_cases hplace : place = []
  · simp [hplace]
  · simp [Ne.symm hplace, hplace]

theorem isTree_bare : bare.IsTree := by
  refine ⟨Table.isSorted_singleton _ _, ?_⟩
  intro place name h
  rw [contains_iff, get?_bare, if_neg (by simp)] at h
  obtain ⟨node, hnode⟩ := h
  cases hnode

section Walk

theorem walk_cons (hname : name.IsProper) (hhere : t.get? here = some .directory) :
    t.walk here (name :: names) =
      if nameLimit < nameSize name then .error .tooLong else t.walk (here ++ [name]) names := by
  have hnil : name ≠ [] := hname.ne_nil
  have hdots := hname.not_dots
  rw [isDots, Bool.or_eq_false_iff, decide_eq_false_iff_not, decide_eq_false_iff_not] at hdots
  rw [walk, hhere]
  simp only [hnil, hdots, or_self, if_false]

theorem walk_eq_ok (hnames : AllProper names) (hsize : ∀ name ∈ names, nameSize name ≤ nameLimit)
    (hdir : ∀ a, a <+: names → a ≠ names → t.get? (here ++ a) = some .directory) :
    t.walk here names = .ok (here ++ names) := by
  induction names generalizing here with
  | nil => rw [walk, List.append_nil]
  | cons name names ih =>
      have hhere : t.get? here = some .directory := by
        have hfirst := hdir [] List.nil_prefix (List.cons_ne_nil name names).symm
        rwa [List.append_nil] at hfirst
      rw [walk_cons (hnames name List.mem_cons_self) hhere,
        if_neg (Nat.not_lt.mpr (hsize name List.mem_cons_self)), ih]
      · rw [List.append_assoc, List.singleton_append]
      · exact fun n hn => hnames n (List.mem_cons_of_mem name hn)
      · exact fun n hn => hsize n (List.mem_cons_of_mem name hn)
      · intro a ha hne
        rw [List.append_assoc, List.singleton_append]
        exact hdir (name :: a) (List.cons_prefix_cons.mpr ⟨rfl, ha⟩) fun heq =>
          hne (List.cons.inj heq).2

/-- The place that one name leads to. -/
def step (here : Place) (name : Name) : Place :=
  if name = [] ∨ name = current then here
  else if name = parent then here.dropLast
  else here ++ [name]

theorem walk_cons_eq_ok_iff : t.walk here (name :: names) = .ok place ↔
    t.get? here = some .directory ∧ nameSize name ≤ nameLimit ∧
    t.walk (step here name) names = .ok place := by
  rw [walk]
  cases t.get? here with
  | none => simp
  | some node =>
      cases node with
      | file data => simp
      | directory =>
          simp only [true_and, step]
          by_cases hdot : name = [] ∨ name = current
          · have hsize : nameSize name ≤ nameLimit := by
              rcases hdot with rfl | rfl <;> decide
            rw [if_pos hdot, if_pos hdot, and_iff_right hsize]
          · rw [if_neg hdot, if_neg hdot]
            by_cases hdots : name = parent
            · have hsize : nameSize name ≤ nameLimit := by
                subst hdots
                decide
              rw [if_pos hdots, if_pos hdots, and_iff_right hsize]
            · rw [if_neg hdots, if_neg hdots]
              by_cases hsize : nameLimit < nameSize name
              · simp [hsize, Nat.not_le_of_lt hsize]
              · simp [hsize, Nat.le_of_not_lt hsize]

theorem step_of_isProper (h : name.IsProper) (here : Place) :
    step here name = here ++ [name] := by
  have hnil := h.ne_nil
  have hdots := h.not_dots
  rw [isDots, Bool.or_eq_false_iff, decide_eq_false_iff_not, decide_eq_false_iff_not] at hdots
  rw [step, if_neg (not_or.mpr ⟨hnil, hdots.1⟩), if_neg hdots.2]

theorem eq_of_walk_eq_ok (hnames : AllProper names) (h : t.walk here names = .ok place) :
    place = here ++ names := by
  induction names generalizing here with
  | nil =>
      rw [walk] at h
      rw [List.append_nil]
      exact (Except.ok.inj h).symm
  | cons name names ih =>
      obtain ⟨-, -, hrest⟩ := walk_cons_eq_ok_iff.mp h
      rw [step_of_isProper (hnames name List.mem_cons_self)] at hrest
      rw [ih (fun n hn => hnames n (List.mem_cons_of_mem name hn)) hrest, List.append_assoc,
        List.singleton_append]

theorem nameSize_le_of_walk_eq_ok (h : t.walk here names = .ok place) :
    ∀ name ∈ names, nameSize name ≤ nameLimit := by
  induction names generalizing here with
  | nil => exact List.forall_mem_nil _
  | cons name names ih =>
      obtain ⟨-, hsize, hrest⟩ := walk_cons_eq_ok_iff.mp h
      exact List.forall_mem_cons.mpr ⟨hsize, ih hrest⟩

theorem locate_eq_ok_iff :
    t.locate base names = .ok place ↔ checkText base names = .ok () ∧
    t.walk base names = .ok place := by
  rw [locate]
  cases checkText base names with
  | error cause => simp [bind, Except.bind]
  | ok _ => simp [bind, Except.bind]

theorem accepts_of_locate_eq_ok (h : t.locate base names = .ok place) : Accepts base names :=
  ⟨(locate_eq_ok_iff.mp h).1, nameSize_le_of_walk_eq_ok (locate_eq_ok_iff.mp h).2⟩

theorem locate_eq (h : Accepts base names) : t.locate base names = t.walk base names := by
  rw [locate, h.1]
  rfl

theorem IsTree.locate_of_contains (h : t.IsTree) (hnames : AllProper names)
    (haccepts : Accepts base names) (hcontains : t.contains (base ++ names)) :
    t.locate base names = .ok (base ++ names) := by
  rw [locate_eq haccepts]
  apply walk_eq_ok hnames haccepts.2
  intro a ha hne
  exact h.directory_below hcontains ha hne

/-- In a tree, what accepted names lead to is what is under them. -/
theorem IsTree.find?_eq (h : t.IsTree) (hnames : AllProper names)
    (haccepts : Accepts base names) :
    t.find? base names = t.get? (base ++ names) := by
  rw [find?]
  cases hnode : t.get? (base ++ names) with
  | some node =>
      rw [h.locate_of_contains hnames haccepts (contains_of_get? hnode)]
      exact hnode
  | none =>
      rw [locate_eq haccepts]
      cases hwalk : t.walk base names with
      | error cause => rfl
      | ok place =>
          rw [eq_of_walk_eq_ok hnames hwalk]
          exact hnode

theorem IsTree.locate_eq_ok (h : t.IsTree) (hnames : AllProper (names ++ [name]))
    (haccepts : Accepts base (names ++ [name]))
    (hparent : t.get? (base ++ names) = some .directory) :
    t.locate base (names ++ [name]) = .ok (base ++ (names ++ [name])) := by
  rw [locate_eq haccepts]
  apply walk_eq_ok hnames haccepts.2
  intro a ha hne
  rcases List.prefix_concat_iff.mp ha with heq | ha
  · exact absurd heq hne
  · rcases eq_or_ne a names with rfl | hne
    · exact hparent
    · exact h.directory_below (contains_of_get? hparent) ha hne

end Walk

section Insert

theorem get?_insert (t : Tree) (k l : Place) (node : Node) :
    (t.insert k node).get? l = if l = k then some node else t.get? l :=
  Table.get?_insert t k l node

/-- Something can be put at the place: it is the top, or lies in a directory. -/
def Seated (t : Tree) (place : Place) : Prop :=
  ∀ p name, place = p ++ [name] → t.get? p = some .directory

theorem seated_nil : t.Seated [] := by
  intro p name heq
  simp at heq

theorem seated_append (hparent : t.get? place = some .directory) (name : Name) :
    t.Seated (place ++ [name]) := by
  intro p n heq
  obtain ⟨rfl, -⟩ := List.append_inj' heq rfl
  exact hparent

theorem IsTree.insert_of_seated (h : t.IsTree) (hseated : t.Seated place) {node : Node}
    (hnode : node = .directory ∨ t.get? place ≠ some .directory) :
    Tree.IsTree (t.insert place node) := by
  refine ⟨Table.IsSorted.insert h.sorted _ _, ?_⟩
  intro p n hp
  have hdir : t.get? p = some .directory := by
    rw [contains_iff, get?_insert] at hp
    split at hp
    · rename_i heq
      exact hseated p n heq.symm
    · exact h.parent p n (contains_iff.mpr hp)
  rw [get?_insert]
  split
  · rename_i heq
    rw [← heq] at hnode
    rw [hnode.resolve_right (not_not_intro hdir)]
  · exact hdir

theorem IsTree.insert (h : t.IsTree) (hparent : t.get? place = some .directory) {node : Node}
    (hnode : node = .directory ∨ t.get? (place ++ [name]) ≠ some .directory) :
    Tree.IsTree (t.insert (place ++ [name]) node) :=
  h.insert_of_seated (seated_append hparent name) hnode

end Insert

section Directories

/-- What the tree is after directories have been made from a place down along names. -/
structure Grown (t : Tree) (base : Place) (names : List Name) (t' : Tree) : Prop where
  isTree : t'.IsTree
  made : ∀ a, a <+: names → t'.get? (base ++ a) = some .directory
  other : ∀ place, (∀ a, a <+: names → place ≠ base ++ a) → t'.get? place = t.get? place

theorem Grown.get?_of_not_isPrefix (h : t.Grown base names t') (ha : ¬ a <+: names) :
    t'.get? (base ++ a) = t.get? (base ++ a) := by
  refine h.other _ ?_
  intro b hb heq
  exact ha (List.append_cancel_left heq ▸ hb)

theorem makeDirectory_of_directory (hlocate : t.locate base names = .ok place)
    (hdir : t.get? place = some .directory) : t.makeDirectory base names = .ok t := by
  simp only [Tree.makeDirectory, hlocate, bind, Except.bind, hdir]
  rfl

theorem makeDirectory_of_none (hlocate : t.locate base names = .ok place)
    (hnone : t.get? place = none) :
    t.makeDirectory base names = .ok (t.insert place .directory) := by
  simp only [Tree.makeDirectory, hlocate, bind, Except.bind, hnone]
  rfl

theorem Grown.of_directory (h : t.Grown base names t')
    (hdir : t'.get? (base ++ (names ++ [name])) = some .directory) :
    t.Grown base (names ++ [name]) t' := by
  refine ⟨h.isTree, ?_, ?_⟩
  · intro a ha
    rcases List.prefix_concat_iff.mp ha with rfl | ha
    · exact hdir
    · exact h.made a ha
  · intro p hp
    exact h.other p fun a ha => hp a (ha.trans (List.prefix_append names [name]))

theorem Grown.insert (h : t.Grown base names t') :
    t.Grown base (names ++ [name]) (t'.insert (base ++ (names ++ [name])) .directory) := by
  have hparent := h.made names List.prefix_rfl
  refine ⟨?_, ?_, ?_⟩
  · rw [← List.append_assoc]
    exact h.isTree.insert hparent (Or.inl rfl)
  · intro a ha
    rw [get?_insert]
    rcases List.prefix_concat_iff.mp ha with rfl | ha
    · rw [if_pos rfl]
    · rw [h.made a ha, ite_self]
  · intro p hp
    rw [get?_insert, if_neg (hp _ List.prefix_rfl)]
    exact h.other p fun a ha => hp a (ha.trans (List.prefix_append names [name]))

theorem Grown.makeDirectory (h : t.Grown base names t') (hnames : AllProper (names ++ [name]))
    (haccepts : Accepts base (names ++ [name]))
    (hfree : ∀ data, t.get? (base ++ (names ++ [name])) ≠ some (.file data)) :
    ∃ t'', t'.makeDirectory base (names ++ [name]) = .ok t'' ∧
      t.Grown base (names ++ [name]) t'' := by
  have hlocate := h.isTree.locate_eq_ok hnames haccepts (h.made names List.prefix_rfl)
  rw [← h.get?_of_not_isPrefix (not_append_singleton_isPrefix names name)] at hfree
  cases hnode : t'.get? (base ++ (names ++ [name])) with
  | none => exact ⟨_, makeDirectory_of_none hlocate hnode, h.insert⟩
  | some node =>
      cases node with
      | file data => exact absurd hnode (hfree data)
      | directory => exact ⟨t', makeDirectory_of_directory hlocate hnode, h.of_directory hnode⟩

theorem IsTree.grown_of_contains (h : t.IsTree) (hcontains : t.contains (base ++ names))
    (hopen : ∀ a, a <+: names → ∀ data, t.get? (base ++ a) ≠ some (.file data)) :
    t.Grown base names t := by
  refine ⟨h, ?_, fun _ _ => rfl⟩
  intro a ha
  rcases eq_or_ne a names with rfl | hne
  · obtain ⟨node, hnode⟩ := contains_iff.mp hcontains
    cases node with
    | file data => exact absurd hnode (hopen a ha data)
    | directory => exact hnode
  · exact h.directory_below hcontains ha hne

theorem IsTree.makeBelow (h : t.IsTree) (hbase : t.get? base = some .directory)
    (hnames : AllProper names) (haccepts : Accepts base names)
    (hopen : ∀ a, a <+: names → ∀ data, t.get? (base ++ a) ≠ some (.file data)) :
    ∃ t', t.makeBelow base names.reverse = (.ok (), t') ∧ t.Grown base names t' := by
  induction names using List.reverseRecOn with
  | nil =>
      refine ⟨t, ?_, h.grown_of_contains ?_ hopen⟩
      · have hlocate : t.locate base [] = .ok base := by
          rw [locate_eq haccepts, walk]
        rw [List.reverse_nil, Tree.makeBelow, makeDirectory_of_directory hlocate hbase]
        rfl
      · rw [List.append_nil]
        exact contains_of_get? hbase
  | append_singleton names name ih =>
      have habove : names <+: names ++ [name] := List.prefix_append names [name]
      have hup := (allProper_append_singleton.mp hnames).1
      have hopen' : ∀ a, a <+: names → ∀ data, t.get? (base ++ a) ≠ some (.file data) :=
        fun a ha => hopen a (ha.trans habove)
      have hcurrent : name ≠ current := by
        have hdots := (allProper_append_singleton.mp hnames).2.not_dots
        rw [isDots, Bool.or_eq_false_iff, decide_eq_false_iff_not] at hdots
        exact hdots.1
      rw [List.reverse_append, List.reverse_singleton, List.singleton_append, Tree.makeBelow,
        List.reverse_reverse]
      by_cases hpresent : t.contains (base ++ names)
      · obtain ⟨t', hmake, hgrown⟩ := (h.grown_of_contains hpresent hopen').makeDirectory hnames
          haccepts (hopen _ List.prefix_rfl)
        refine ⟨t', ?_, hgrown⟩
        rw [if_pos]
        · simp only [hmake]
          rfl
        · rwa [isPresent, h.find?_eq hup (haccepts.of_isPrefix habove)]
      · obtain ⟨t₁, hfirst, hgrown₁⟩ := ih hup (haccepts.of_isPrefix habove) hopen'
        obtain ⟨t', hmake, hgrown⟩ := hgrown₁.makeDirectory hnames haccepts
          (hopen _ List.prefix_rfl)
        refine ⟨t', ?_, hgrown⟩
        rw [if_neg, hfirst]
        · simp only [hcurrent, if_false, hmake]
          rfl
        · rwa [isPresent, h.find?_eq hup (haccepts.of_isPrefix habove)]

theorem makeDirectories_of_contains (hbase : t.contains base) (names : List Name) :
    t.makeDirectories base names = t.makeBelow base names :=
  if_pos hbase

theorem IsTree.makeDirectories (h : t.IsTree) (hbase : t.get? base = some .directory)
    (hnames : AllProper names) (haccepts : Accepts base names)
    (hopen : ∀ a, a <+: names → ∀ data, t.get? (base ++ a) ≠ some (.file data)) :
    ∃ t', t.makeDirectories base names.reverse = (.ok (), t') ∧ t.Grown base names t' := by
  rw [makeDirectories_of_contains (contains_of_get? hbase)]
  exact h.makeBelow hbase hnames haccepts hopen

end Directories

section Files

theorem isDirectory_iff : t.isDirectory place ↔ t.get? place = some .directory := by
  rw [isDirectory]
  cases t.get? place with
  | none => simp
  | some node => cases node <;> simp [Node.isDirectory]

theorem of_fileTarget_eq_ok (h : t.fileTarget base names = .ok place) :
    t.walk base names = .ok place ∧ t.get? place ≠ some .directory := by
  rw [fileTarget] at h
  cases hcheck : checkText base names with
  | error cause =>
      rw [hcheck] at h
      cases h
  | ok _ =>
      rw [hcheck] at h
      simp only [bind, Except.bind] at h
      split at h
      · split at h <;> cases h
      · split at h
        · cases h
        · rename_i hwalk
          split at h
          · cases h
          · rename_i hdir
            cases h
            exact ⟨hwalk, isDirectory_iff.not.mp hdir⟩

theorem IsTree.fileTarget_eq_ok (h : t.IsTree) (hnames : AllProper (names ++ [name]))
    (haccepts : Accepts base (names ++ [name]))
    (hparent : t.get? (base ++ names) = some .directory)
    (hfree : t.get? (base ++ (names ++ [name])) ≠ some .directory) :
    t.fileTarget base (names ++ [name]) = .ok (base ++ (names ++ [name])) := by
  have hname := (allProper_append_singleton.mp hnames).2
  have hproper : ((names ++ [name]).getLast?).all (fun name => name = [] || isDots name) =
      false := by
    rw [List.getLast?_append_of_ne_nil _ (by simp), List.getLast?_singleton, Option.all_some]
    simp [hname.ne_nil, hname.not_dots]
  have hlocate := h.locate_eq_ok hnames haccepts hparent
  rw [locate_eq haccepts] at hlocate
  have hdir : ¬ t.isDirectory (base ++ (names ++ [name])) := isDirectory_iff.not.mpr hfree
  rw [fileTarget, haccepts.1, if_neg (by rw [hproper]; exact Bool.false_ne_true)]
  change (do
    let place ← t.walk base (names ++ [name])
    if t.isDirectory place then throw Obstacle.isDirectory else return place) = _
  rw [hlocate]
  exact if_neg hdir

theorem filter_ne_nil_eq_self (hnames : AllProper names) : names.filter (· ≠ []) = names := by
  rw [List.filter_eq_self]
  intro name hname
  exact decide_eq_true (hnames name hname).ne_nil

end Files

section Remove

theorem get?_erase (t : Tree) (p k : Place) :
    (t.erase p).get? k = if p <+: k then none else t.get? k := by
  rw [Table.get?, erase, List.find?_filter]
  split
  · rename_i hpre
    rw [List.find?_eq_none.mpr]
    · rfl
    · intro e _
      simp only [Bool.not_eq_true', decide_eq_true_eq]
      rintro ⟨hnot, rfl⟩
      rw [← Bool.not_eq_true, List.isPrefixOf_iff_prefix] at hnot
      exact hnot hpre
  · rename_i hpre
    rw [Table.get?]
    congr 2
    funext e
    by_cases he : e.1 = k
    · subst he
      rw [← List.isPrefixOf_iff_prefix] at hpre
      simp [hpre]
    · simp [he]

theorem IsTree.erase (h : t.IsTree) (p : Place) : (t.erase p).IsTree := by
  constructor
  · exact List.Pairwise.filter _ h.sorted
  · intro k n hk
    rw [contains_iff, get?_erase] at hk
    split at hk
    · obtain ⟨node, hnode⟩ := hk
      cases hnode
    · rename_i hnot
      rw [get?_erase, if_neg fun hpre => hnot (hpre.trans (List.prefix_append k [n]))]
      exact h.parent k n (contains_iff.mpr hk)

theorem IsTree.get?_erase_of_file (h : t.IsTree) {data : Bytes}
    (ha : t.get? a = some (.file data)) (k : Place) :
    (t.erase a).get? k = if k = a then none else t.get? k := by
  rw [get?_erase]
  rcases eq_or_ne k a with rfl | heq
  · rw [if_pos List.prefix_rfl, if_pos rfl]
  · rw [if_neg heq]
    split
    · rename_i hpre
      cases hnode : t.get? k with
      | none => rfl
      | some node =>
          exact absurd (h.eq_of_isPrefix_of_file ha (contains_of_get? hnode) hpre).symm heq
    · rfl

theorem IsTree.move_of_file (h : t.IsTree) {data : Bytes} (ha : t.get? a = some (.file data))
    (target : Place) : t.move a target = (t.erase a).insert target (.file data) := by
  have hself : (a, Node.file data) ∈ t.entries := Table.mem_entries_of_get? ha
  have hall : ∀ e ∈ t.entries.filter (fun e => a.isPrefixOf e.1), e = (a, .file data) := by
    rintro ⟨k, node⟩ he
    obtain ⟨hmem, hpre⟩ := List.mem_filter.mp he
    have hnode : t.get? k = some node := (h.sorted.mem_entries_iff k node).mp hmem
    obtain rfl := h.eq_of_isPrefix_of_file ha (contains_of_get? hnode)
      (List.isPrefixOf_iff_prefix.mp hpre)
    rw [ha] at hnode
    rw [Option.some.inj hnode]
  have honly : t.entries.filter (fun e => a.isPrefixOf e.1) = [(a, .file data)] := by
    have hmem : (a, Node.file data) ∈ t.entries.filter (fun e => a.isPrefixOf e.1) :=
      List.mem_filter.mpr ⟨hself, List.isPrefixOf_iff_prefix.mpr List.prefix_rfl⟩
    have hsorted : (t.entries.filter fun e => a.isPrefixOf e.1).Pairwise fun d e => d.1 < e.1 :=
      List.Pairwise.filter _ h.sorted
    generalize t.entries.filter (fun e => a.isPrefixOf e.1) = es at hall hmem hsorted
    cases es with
    | nil => cases hmem
    | cons d es =>
        obtain rfl := hall d List.mem_cons_self
        cases es with
        | nil => rfl
        | cons e es =>
            obtain rfl := hall e (List.mem_cons_of_mem _ List.mem_cons_self)
            exact absurd ((List.pairwise_cons.mp hsorted).1 _ List.mem_cons_self)
              (List.lt_irrefl a)
  rw [move, honly, List.foldl_cons, List.foldl_nil, List.drop_length, List.append_nil]

end Remove

section List

theorem nameBelow_eq_some_iff {p q : Place} {name : Name} : (match q.getLast? with
    | some last => if q.dropLast = p then some last else none
    | none => none) = some name ↔ q = p ++ [name] := by
  cases q using List.reverseRecOn with
  | nil => simp
  | append_singleton q last =>
      simp only [List.getLast?_concat, List.dropLast_concat]
      constructor
      · intro h
        split at h
        · rename_i heq
          rw [heq, Option.some.inj h]
        · cases h
      · intro h
        obtain ⟨rfl, hlast⟩ := List.append_inj' h rfl
        rw [if_pos rfl, List.singleton_inj.mp hlast]

theorem IsTree.mem_namesBelow_iff (h : t.IsTree) (p : Place) (name : Name) :
    name ∈ t.namesBelow p ↔ t.contains (p ++ [name]) := by
  rw [namesBelow, List.mem_filterMap, contains_iff]
  constructor
  · rintro ⟨⟨k, node⟩, hmem, hname⟩
    obtain rfl : k = p ++ [name] := nameBelow_eq_some_iff.mp hname
    exact ⟨node, (h.sorted.mem_entries_iff _ node).mp hmem⟩
  · rintro ⟨node, hnode⟩
    exact ⟨(p ++ [name], node), Table.mem_entries_of_get? hnode, nameBelow_eq_some_iff.mpr rfl⟩

theorem IsTree.namesBelow_ascending (h : t.IsTree) (p : Place) :
    (t.namesBelow p).Pairwise (· < ·) := by
  rw [namesBelow, List.pairwise_filterMap]
  refine h.sorted.imp ?_
  rintro ⟨k, _⟩ ⟨l, _⟩ hlt x hx y hy
  obtain rfl : k = p ++ [x] := nameBelow_eq_some_iff.mp hx
  obtain rfl : l = p ++ [y] := nameBelow_eq_some_iff.mp hy
  rcases List.cons_lt_cons_iff.mp (Table.lt_of_append_lt_append hlt) with hxy | ⟨-, hnil⟩
  · exact hxy
  · exact absurd hnil (List.not_lt_nil [])

end List

end Tree

end StorageLoad.Host
