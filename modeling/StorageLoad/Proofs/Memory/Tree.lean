import StorageLoad.Proofs.Memory.Entries
import StorageLoad.Proofs.Path

/-!
The tree in the service in memory: every stored path but `/` lies in a stored directory.  Told by
names, the operations that change the tree grow it along a path, prune it below one, or move what
lies below one (`Grown`, `Pruned`, `Moved`), and it stays a tree.
-/

namespace StorageLoad.Memory

open StorageLoad.Path

/-- The top is a directory, and every other stored path is a normalised one that lies in a stored
directory. -/
structure IsTree (m : Memory) : Prop where
  root : ∃ e, m.get? ['/'] = some e ∧ e.isDirectory
  parent : ∀ p ∈ m.paths, p ≠ ['/'] →
    p.IsNormal ∧ ∃ e, m.get? p.directory = some e ∧ e.isDirectory

/-- Something is stored at the path, and it is a directory. -/
def HasDirectory (m : Memory) (p : Path) : Prop :=
  ∃ e, m.get? p = some e ∧ e.isDirectory

theorem HasDirectory.contains {m : Memory} {p : Path} (h : m.HasDirectory p) : m.contains p := by
  obtain ⟨e, he, -⟩ := h
  exact contains_iff.mpr ⟨e, he⟩

/-- The top is a directory, and every other stored path lies in a stored directory, whatever its
text. -/
structure HasParents (m : Memory) : Prop where
  root : m.HasDirectory ['/']
  parent : ∀ p ∈ m.paths, p ≠ ['/'] → m.HasDirectory p.directory

theorem IsTree.hasParents {m : Memory} (h : m.IsTree) : m.HasParents :=
  ⟨h.root, fun p hp hne => (h.parent p hp hne).2⟩

theorem isTree_iff {m : Memory} : m.IsTree ↔ m.HasDirectory ['/'] ∧
    ∀ p, m.contains p → p ≠ ['/'] → ∃ names name, AllProper (names ++ [name]) ∧
      p = ofNames (names ++ [name]) ∧ m.HasDirectory (ofNames names) := by
  constructor
  · rintro ⟨hroot, hparent⟩
    refine ⟨hroot, ?_⟩
    intro p hp hne
    obtain ⟨⟨names, hnames, rfl⟩, hdir⟩ :=
      hparent p (mem_paths_iff.mpr (contains_iff.mp hp)) hne
    cases names using List.reverseRecOn with
    | nil => exact absurd rfl hne
    | append_singleton names name =>
        rw [directory_ofNames hnames] at hdir
        exact ⟨names, name, hnames, rfl, hdir⟩
  · rintro ⟨hroot, hparent⟩
    refine ⟨hroot, ?_⟩
    intro p hp hne
    obtain ⟨names, name, hnames, rfl, hdir⟩ :=
      hparent p (contains_iff.mpr (mem_paths_iff.mp hp)) hne
    rw [directory_ofNames hnames]
    exact ⟨isNormal_ofNames hnames, hdir⟩

theorem isTree_fresh (lag : Int) : (fresh lag).IsTree := by
  refine isTree_iff.mpr ⟨⟨Entry.directory, by rw [get?_fresh, if_pos rfl], rfl⟩, ?_⟩
  intro p hp hne
  rw [contains_iff, get?_fresh, if_neg hne] at hp
  obtain ⟨e, he⟩ := hp
  cases he

theorem ofNames_append_singleton_ne_slash {names : List Name} {name : Name}
    (h : AllProper (names ++ [name])) : ofNames (names ++ [name]) ≠ ['/'] := by
  rw [← ofNames_nil, Ne, ofNames_inj h (by simp [AllProper])]
  simp

namespace HasParents

variable {m : Memory}

theorem hasDirectory_of_append (h : m.HasParents) {names : List Name} {name : Name}
    (hnames : AllProper (names ++ [name])) (hp : m.contains (ofNames (names ++ [name]))) :
    m.HasDirectory (ofNames names) := by
  rw [← directory_ofNames hnames]
  exact h.parent _ (mem_paths_iff.mpr (contains_iff.mp hp))
    (ofNames_append_singleton_ne_slash hnames)

theorem hasDirectory_of_isPrefix (h : m.HasParents) {a b : List Name} (hb : AllProper b)
    (hp : m.contains (ofNames b)) (hab : a <+: b) (hne : a ≠ b) : m.HasDirectory (ofNames a) := by
  induction b using List.reverseRecOn with
  | nil => exact absurd (List.prefix_nil.mp hab) hne
  | append_singleton b name ih =>
      have hdir := h.hasDirectory_of_append hb hp
      rcases List.prefix_concat_iff.mp hab with heq | hab
      · exact absurd heq hne
      · by_cases heq : a = b
        · exact heq ▸ hdir
        · exact ih (allProper_append_singleton.mp hb).1 hdir.contains hab heq

theorem contains_of_isPrefix (h : m.HasParents) {a b : List Name} (hb : AllProper b)
    (hp : m.contains (ofNames b)) (hab : a <+: b) : m.contains (ofNames a) := by
  by_cases heq : a = b
  · exact heq ▸ hp
  · exact (h.hasDirectory_of_isPrefix hb hp hab heq).contains

end HasParents

namespace IsTree

variable {m : Memory}

theorem isNormal (h : m.IsTree) {p : Path} (hp : m.contains p) : p.IsNormal := by
  by_cases hne : p = ['/']
  · exact ⟨[], by simp [AllProper], hne⟩
  · obtain ⟨names, name, hnames, rfl, -⟩ := (isTree_iff.mp h).2 p hp hne
    exact isNormal_ofNames hnames

theorem hasDirectory_of_append (h : m.IsTree) {names : List Name} {name : Name}
    (hnames : AllProper (names ++ [name])) (hp : m.contains (ofNames (names ++ [name]))) :
    m.HasDirectory (ofNames names) :=
  h.hasParents.hasDirectory_of_append hnames hp

theorem hasDirectory_of_isPrefix (h : m.IsTree) {a b : List Name} (hb : AllProper b)
    (hp : m.contains (ofNames b)) (hab : a <+: b) (hne : a ≠ b) : m.HasDirectory (ofNames a) :=
  h.hasParents.hasDirectory_of_isPrefix hb hp hab hne

theorem contains_of_isPrefix (h : m.IsTree) {a b : List Name} (hb : AllProper b)
    (hp : m.contains (ofNames b)) (hab : a <+: b) : m.contains (ofNames a) :=
  h.hasParents.contains_of_isPrefix hb hp hab

theorem not_isPrefix_of_file (h : m.IsTree) {p q : Path} {e : Entry} (he : m.get? p = some e)
    (hfile : e.isDirectory = false) (hq : m.contains q) : ¬ p ++ ['/'] <+: q := by
  intro hpre
  obtain ⟨a, ha, rfl⟩ := h.isNormal (contains_iff.mpr ⟨e, he⟩)
  obtain ⟨b, hb, rfl⟩ := h.isNormal hq
  have hnil : a ≠ [] := by
    rintro rfl
    obtain ⟨d, hd, hdir⟩ := h.root
    rw [ofNames_nil, hd] at he
    rw [Option.some.inj he, hfile] at hdir
    cases hdir
  rw [ofNames_append_slash_isPrefix_iff ha hb hnil] at hpre
  obtain ⟨d, hd, hdir⟩ := h.hasDirectory_of_isPrefix hb hq hpre.1 hpre.2
  rw [he] at hd
  rw [← Option.some.inj hd, hfile] at hdir
  cases hdir

end IsTree

section Directories

variable {m m' : Memory} {names : List Name}

/-- No file stands at a path or above it. -/
def IsOpen (m : Memory) (names : List Name) : Prop :=
  ∀ a, a <+: names → ∀ e, m.get? (ofNames a) = some e → e.isDirectory

theorem not_contains_iff {p : Path} : ¬ m.contains p ↔ m.get? p = none := by
  rw [contains, Table.contains, Bool.not_eq_true, Option.isSome_eq_false_iff,
    Option.isNone_iff_eq_none]
  rfl

theorem contains_eq_false {p : Path} (h : m.get? p = none) : m.contains p = false :=
  (Bool.not_eq_true _).mp (not_contains_iff.mpr h)

theorem IsTree.get?_eq_none_of_not_isNormal (h : m.IsTree) {p : Path} (hp : ¬ p.IsNormal) :
    m.get? p = none :=
  not_contains_iff.mp fun hstored => hp (h.isNormal hstored)

theorem exists_nearest (h : m.HasParents) (hnames : AllProper names) :
    ∃ a, a <+: names ∧ (∀ b, b <+: names → (m.contains (ofNames b) ↔ b <+: a)) ∧
      (ofNames names).ancestors.find? m.contains = some (ofNames a) ∧
      ∀ p, p ∈ (ofNames names).ancestors.takeWhile (fun q => !m.contains q) ↔
        ∃ b, b <+: names ∧ ¬ m.contains (ofNames b) ∧ p = ofNames b := by
  induction names using List.reverseRecOn with
  | nil =>
      have hroot : m.contains ['/'] := HasDirectory.contains h.root
      refine ⟨[], List.prefix_rfl, ?_, ?_, ?_⟩
      · intro b hb
        rw [List.prefix_nil.mp hb]
        simp [hroot]
      · simp [ancestors_slash, hroot]
      · simp [ancestors_slash, hroot]
  | append_singleton names name ih =>
      rw [ancestors_ofNames hnames]
      by_cases hstored : m.contains (ofNames (names ++ [name]))
      · have hall : ∀ b, b <+: names ++ [name] → m.contains (ofNames b) := fun b hb =>
          h.contains_of_isPrefix hnames hstored hb
        refine ⟨names ++ [name], List.prefix_rfl, ?_, ?_, ?_⟩
        · exact fun b hb => iff_of_true (hall b hb) hb
        · rw [List.find?_cons_of_pos hstored]
        · intro p
          rw [List.takeWhile_cons_of_neg (by simpa using hstored)]
          simp only [List.not_mem_nil, false_iff, not_exists]
          rintro b ⟨hb, hnot, -⟩
          exact hnot (hall b hb)
      · obtain ⟨a, ha, hcontains, hfind, hmem⟩ := ih (allProper_append_singleton.mp hnames).1
        refine ⟨a, ha.trans (List.prefix_append _ _), ?_, ?_, ?_⟩
        · intro b hb
          rcases List.prefix_concat_iff.mp hb with rfl | hb
          · refine iff_of_false hstored fun hpre => ?_
            exact not_append_singleton_isPrefix names name (hpre.trans ha)
          · exact hcontains b hb
        · rw [List.find?_cons_of_neg (by simpa using hstored), hfind]
        · intro p
          rw [List.takeWhile_cons_of_pos (by simpa using hstored), List.mem_cons, hmem]
          constructor
          · rintro (rfl | ⟨b, hb, hnot, rfl⟩)
            · exact ⟨names ++ [name], List.prefix_rfl, hstored, rfl⟩
            · exact ⟨b, hb.trans (List.prefix_append _ _), hnot, rfl⟩
          · rintro ⟨b, hb, hnot, rfl⟩
            rcases List.prefix_concat_iff.mp hb with rfl | hb
            · exact Or.inl rfl
            · exact Or.inr ⟨b, hb, hnot, rfl⟩

/-- What the service is after the missing directories down along names have been made. -/
structure Grown (m : Memory) (names : List Name) (m' : Memory) : Prop where
  lag : m'.lag = m.lag
  sorted : m.IsSorted → m'.IsSorted
  kept : ∀ p e, m.get? p = some e → m'.get? p = some e
  made : ∀ a, a <+: names → m.get? (ofNames a) = none →
    m'.get? (ofNames a) = some Entry.directory
  other : ∀ p, (∀ a, a <+: names → p ≠ ofNames a) → m'.get? p = m.get? p

theorem makeDirectories_of_isOpen (h : m.HasParents) (hnames : AllProper names)
    (hopen : m.IsOpen names) :
    ∃ m', m.makeDirectories (ofNames names) = some (.ok m') ∧ m.Grown names m' := by
  obtain ⟨a, ha, hcontains, hfind, hmem⟩ := exists_nearest h hnames
  obtain ⟨e, he⟩ := contains_iff.mp ((hcontains a ha).mpr List.prefix_rfl)
  rw [makeDirectories, if_neg (by simp [isAbsolute_ofNames]), hfind]
  simp only [he, hopen a ha e he, if_true]
  refine ⟨_, rfl, ?_⟩
  constructor
  · exact foldl_induction (fun m' => m'.lag = m.lag) (fun m' p hlag =>
      (lag_put m' p _).trans hlag) _ rfl
  · exact foldl_induction IsSorted (fun m' p hsorted => hsorted.put p Entry.directory) _
  · intro p d hd
    rw [get?_foldl_put, if_neg, hd]
    intro hp
    obtain ⟨b, -, hnot, rfl⟩ := (hmem p).mp hp
    exact hnot (contains_iff.mpr ⟨d, hd⟩)
  · intro b hb hnone
    rw [get?_foldl_put, if_pos ((hmem _).mpr ⟨b, hb, not_contains_iff.mpr hnone, rfl⟩)]
  · intro p hp
    rw [get?_foldl_put, if_neg]
    intro hpassed
    obtain ⟨b, hb, -, rfl⟩ := (hmem p).mp hpassed
    exact hp b hb rfl

theorem makeDirectories_of_not_isOpen (h : m.HasParents) (hnames : AllProper names)
    (hclosed : ¬ m.IsOpen names) :
    ∃ p, m.makeDirectories (ofNames names) = some (.error (.isFile p)) := by
  obtain ⟨a, ha, hcontains, hfind, -⟩ := exists_nearest h hnames
  obtain ⟨e, he⟩ := contains_iff.mp ((hcontains a ha).mpr List.prefix_rfl)
  rw [makeDirectories, if_neg (by simp [isAbsolute_ofNames]), hfind]
  by_cases hdir : e.isDirectory
  · refine absurd ?_ hclosed
    intro b hb d hd
    by_cases hba : b = a
    · subst hba
      rw [he] at hd
      exact Option.some.inj hd ▸ hdir
    · obtain ⟨d', hd', hdir'⟩ := h.hasDirectory_of_isPrefix (hnames.of_isPrefix ha)
        (contains_iff.mpr ⟨e, he⟩) ((hcontains b hb).mp (contains_iff.mpr ⟨d, hd⟩)) hba
      rw [hd] at hd'
      exact Option.some.inj hd' ▸ hdir'
  · exact ⟨ofNames a, by simp [he, hdir]⟩

namespace Grown

theorem hasDirectory_of_isPrefix (h : m.Grown names m') (hopen : m.IsOpen names) {a : List Name}
    (ha : a <+: names) : m'.HasDirectory (ofNames a) := by
  cases he : m.get? (ofNames a) with
  | none => exact ⟨Entry.directory, h.made a ha he, rfl⟩
  | some e => exact ⟨e, h.kept _ e he, hopen a ha e he⟩

theorem hasDirectory (h : m.Grown names m') {p : Path} (hp : m.HasDirectory p) :
    m'.HasDirectory p := by
  obtain ⟨e, he, hdir⟩ := hp
  exact ⟨e, h.kept p e he, hdir⟩

theorem isOld_or_isPrefix (h : m.Grown names m') {p : Path} (hp : m'.contains p) :
    m.contains p ∨ ∃ a, a <+: names ∧ p = ofNames a := by
  by_cases hway : ∃ a, a <+: names ∧ p = ofNames a
  · exact Or.inr hway
  · rw [contains_iff, h.other p fun a ha heq => hway ⟨a, ha, heq⟩, ← contains_iff] at hp
    exact Or.inl hp

theorem hasParents (h : m.Grown names m') (hm : m.HasParents) (hnames : AllProper names)
    (hopen : m.IsOpen names) : m'.HasParents := by
  refine ⟨h.hasDirectory hm.root, ?_⟩
  intro p hp hne
  rcases h.isOld_or_isPrefix (contains_iff.mpr (mem_paths_iff.mp hp)) with hold | ⟨a, ha, rfl⟩
  · exact h.hasDirectory (hm.parent p (mem_paths_iff.mpr (contains_iff.mp hold)) hne)
  · cases a using List.reverseRecOn with
    | nil => exact absurd rfl hne
    | append_singleton ns n =>
        rw [directory_ofNames (hnames.of_isPrefix ha)]
        exact h.hasDirectory_of_isPrefix hopen ((List.prefix_append ns [n]).trans ha)

theorem isTree (h : m.Grown names m') (hm : m.IsTree) (hnames : AllProper names)
    (hopen : m.IsOpen names) : m'.IsTree := by
  have hparents := h.hasParents hm.hasParents hnames hopen
  refine ⟨hparents.root, fun p hp hne => ⟨?_, hparents.parent p hp hne⟩⟩
  rcases h.isOld_or_isPrefix (contains_iff.mpr (mem_paths_iff.mp hp)) with hold | ⟨a, ha, rfl⟩
  · exact hm.isNormal hold
  · exact isNormal_ofNames (hnames.of_isPrefix ha)

end Grown

end Directories

section Put

variable {m : Memory} {names : List Name} {name : Name}

/-- Whether a file stands at the path, or nothing. -/
def IsFree (m : Memory) (p : Path) : Prop :=
  ∀ e, m.get? p = some e → e.isDirectory = false

theorem IsTree.isFree_ne_slash (h : m.IsTree) {p : Path} (hp : m.IsFree p) : p ≠ ['/'] := by
  rintro rfl
  obtain ⟨e, he, hdir⟩ := h.root
  rw [hp e he] at hdir
  cases hdir

theorem IsTree.put (h : m.IsTree) (hnames : AllProper (names ++ [name]))
    (hparent : m.HasDirectory (ofNames names)) (hfree : m.IsFree (ofNames (names ++ [name])))
    (e : Entry) : (m.put (ofNames (names ++ [name])) e).IsTree := by
  have hkept : ∀ p, m.HasDirectory p → (m.put (ofNames (names ++ [name])) e).HasDirectory p := by
    rintro p ⟨d, hd, hdir⟩
    refine ⟨d, ?_, hdir⟩
    rw [get?_put, if_neg, hd]
    rintro rfl
    rw [hfree d hd] at hdir
    cases hdir
  refine isTree_iff.mpr ⟨hkept _ h.root, ?_⟩
  intro p hp hne
  by_cases heq : p = ofNames (names ++ [name])
  · exact ⟨names, name, hnames, heq, hkept _ hparent⟩
  · rw [contains_iff, get?_put, if_neg heq, ← contains_iff] at hp
    obtain ⟨ns, n, hns, rfl, hdir⟩ := (isTree_iff.mp h).2 p hp hne
    exact ⟨ns, n, hns, rfl, hkept _ hdir⟩

theorem IsTree.put_of_file (h : m.IsTree) {p : Path} {d : Entry} (hd : m.get? p = some d)
    (hfile : d.isDirectory = false) (e : Entry) : (m.put p e).IsTree := by
  have hfree : m.IsFree p := by
    intro e' he'
    rw [hd] at he'
    exact Option.some.inj he' ▸ hfile
  have hp : m.contains p := contains_iff.mpr ⟨d, hd⟩
  obtain ⟨ns, n, hns, rfl, hdir⟩ := (isTree_iff.mp h).2 p hp (h.isFree_ne_slash hfree)
  exact h.put hns hdir hfree e

end Put

section Below

variable {m : Memory} {a b : List Name} {e : Entry}

theorem IsTree.get?_eq_none_of_file (h : m.IsTree) (he : m.get? (ofNames a) = some e)
    (hfile : e.isDirectory = false) (hb : AllProper b) (hab : a <+: b) (hne : a ≠ b) :
    m.get? (ofNames b) = none := by
  rw [← not_contains_iff]
  intro hcontains
  obtain ⟨d, hd, hdir⟩ := h.hasDirectory_of_isPrefix hb hcontains hab hne
  rw [he] at hd
  rw [← Option.some.inj hd, hfile] at hdir
  cases hdir

theorem IsTree.get?_eq_none_of_none (h : m.IsTree) (ha : m.get? (ofNames a) = none)
    (hb : AllProper b) (hab : a <+: b) : m.get? (ofNames b) = none := by
  rw [← not_contains_iff] at ha ⊢
  exact fun hcontains => ha (h.contains_of_isPrefix hb hcontains hab)

end Below

section Remove

variable {m m' : Memory} {a : List Name}

/-- What the service is after a path has been removed with everything below it. -/
structure Pruned (m : Memory) (a : List Name) (m' : Memory) : Prop where
  lag : m'.lag = m.lag
  sorted : m'.IsSorted
  gone : ∀ b, AllProper b → a <+: b → m'.get? (ofNames b) = none
  other : ∀ p, (∀ b, AllProper b → a <+: b → p ≠ ofNames b) → m'.get? p = m.get? p

theorem IsTree.mem_children_iff (h : m.IsTree) (hs : m.IsSorted) (ha : AllProper a) {p : Path} :
    p ∈ m.children (ofNames a) ↔
      m.contains p ∧ ∃ b, AllProper b ∧ p = ofNames b ∧ a <+: b ∧ a ≠ b := by
  rw [Memory.mem_children_iff hs, below, stripSlashes_ofNames ha]
  refine and_congr_right ?_
  intro hp
  obtain ⟨b, hb, rfl⟩ := h.isNormal hp
  rw [isPrefix_and_ne_iff ha hb]
  constructor
  · exact fun hab => ⟨b, hb, rfl, hab⟩
  · rintro ⟨c, hc, heq, hac⟩
    rwa [(ofNames_inj hb hc).mp heq]

theorem IsTree.delete (h : m.IsTree) (hs : m.IsSorted) (ha : AllProper a)
    (hp : m.contains (ofNames a)) :
    ∃ m', m.delete (ofNames a) = (.ok .yes, m') ∧ m.Pruned a m' := by
  have hself : ofNames a ∉ m.children (ofNames a) := by
    rw [h.mem_children_iff hs ha]
    rintro ⟨-, b, hb, heq, -, hne⟩
    exact hne ((ofNames_inj ha hb).mp heq)
  set rest := (m.children (ofNames a)).foldl Memory.erase m with hrest
  have hget : ∀ q, rest.get? q = if q ∈ m.children (ofNames a) then none else m.get? q :=
    get?_foldl_erase _ m
  have hthere : rest.contains (ofNames a) := by
    rw [contains_iff, hget, if_neg hself]
    exact contains_iff.mp hp
  refine ⟨rest.erase (ofNames a), ?_, ?_⟩
  · simp [Memory.delete, hp, ← hrest, hthere]
  · constructor
    · exact foldl_induction (fun m' => m'.lag = m.lag) (fun m' p hlag =>
        (lag_erase m' p).trans hlag) _ rfl
    · exact IsSorted.erase (foldl_induction IsSorted (fun m' p hsorted => hsorted.erase p) _ hs) _
    · intro b hb hab
      rw [get?_erase]
      split
      · rfl
      · rename_i hne
        rw [hget]
        split
        · rfl
        · rename_i hnot
          rw [← not_contains_iff]
          intro hb'
          refine hnot ((h.mem_children_iff hs ha).mpr ⟨hb', b, hb, rfl, hab, ?_⟩)
          rintro rfl
          exact hne rfl
    · intro p hother
      rw [get?_erase, if_neg (hother a ha List.prefix_rfl), hget, if_neg]
      intro hmem
      obtain ⟨-, b, hb, heq, hab, -⟩ := (h.mem_children_iff hs ha).mp hmem
      exact hother b hb hab heq

theorem Pruned.isTree (hm' : m.Pruned a m') (h : m.IsTree) (ha : a ≠ []) : m'.IsTree := by
  -- A directory stays unless the removed path is at it or above it.
  have hkept : ∀ names, AllProper names → ¬ a <+: names → m.HasDirectory (ofNames names) →
      m'.HasDirectory (ofNames names) := by
    rintro names hnames hnot ⟨e, he, hdir⟩
    refine ⟨e, ?_, hdir⟩
    rw [hm'.other _ ?_, he]
    intro b hb hab heq
    exact hnot ((ofNames_inj hnames hb).mp heq ▸ hab)
  refine isTree_iff.mpr ⟨?_, ?_⟩
  · exact hkept [] (by simp [AllProper]) (fun hpre => ha (List.prefix_nil.mp hpre)) h.root
  · intro p hp hne
    by_cases hgone : ∃ b, AllProper b ∧ a <+: b ∧ p = ofNames b
    · obtain ⟨b, hb, hab, rfl⟩ := hgone
      exact absurd hp (not_contains_iff.mpr (hm'.gone b hb hab))
    · have hother : ∀ b, AllProper b → a <+: b → p ≠ ofNames b := fun b hb hab heq =>
        hgone ⟨b, hb, hab, heq⟩
      rw [contains_iff, hm'.other p hother, ← contains_iff] at hp
      obtain ⟨names, name, hnames, rfl, hdir⟩ := (isTree_iff.mp h).2 p hp hne
      refine ⟨names, name, hnames, rfl, ?_⟩
      refine hkept names (allProper_append_singleton.mp hnames).1 ?_ hdir
      exact fun hpre => hother _ hnames (hpre.trans (List.prefix_append _ _)) rfl

end Remove

section Rename

variable {m m' grown : Memory} {a target : List Name}

theorem not_isPrefix_of_apart (hat : ¬ a <+: target) (hta : ¬ target <+: a) {b : List Name}
    (hb : target <+: b) : ¬ a <+: b := by
  intro hab
  rcases List.prefix_or_prefix_of_prefix hb hab with hpre | hpre
  · exact hta hpre
  · exact hat hpre

theorem allProper_append_of_append {b c : List Name} (hb : AllProper b)
    (hac : AllProper (a ++ c)) :
    AllProper (b ++ c) := by
  intro n hn
  rcases List.mem_append.mp hn with hn | hn
  · exact hb n hn
  · exact hac n (List.mem_append_right a hn)

/-- Where a path below `a` goes when `a` is moved to `target`. -/
def place (a target : List Name) (p : Path) : Path :=
  ofNames target ++ p.drop (ofNames a).length

theorem place_append (ha : a ≠ []) (ht : target ≠ []) (c : List Name) :
    place a target (ofNames (a ++ c)) = ofNames (target ++ c) :=
  ofNames_append_drop ha ht c

/-- What the service is after everything below a path has been moved. -/
structure MovedBelow (m : Memory) (a target : List Name) (m' : Memory) : Prop where
  lag : m'.lag = m.lag
  sorted : m'.IsSorted
  onto : ∀ c, c ≠ [] → AllProper (target ++ c) →
    m'.get? (ofNames (target ++ c)) = m.get? (ofNames (a ++ c))
  off : ∀ c, c ≠ [] → AllProper (a ++ c) → m'.get? (ofNames (a ++ c)) = none
  other : ∀ p, (∀ c, c ≠ [] → AllProper (a ++ c) → p ≠ ofNames (a ++ c)) →
    (∀ c, c ≠ [] → AllProper (target ++ c) → p ≠ ofNames (target ++ c)) → m'.get? p = m.get? p

theorem ofNames_append_ne_of_apart (hat : ¬ a <+: target) (hta : ¬ target <+: a) {c d : List Name}
    (hc : AllProper (a ++ c)) (hd : AllProper (target ++ d)) :
    ofNames (a ++ c) ≠ ofNames (target ++ d) := by
  intro heq
  rw [ofNames_inj hc hd] at heq
  exact not_isPrefix_of_apart hat hta (List.prefix_append target d) (heq ▸ List.prefix_append a c)

theorem IsTree.mem_children_append_iff (h : m.IsTree) (hs : m.IsSorted) (ha : AllProper a)
    {p : Path} :
    p ∈ m.children (ofNames a) ↔
      ∃ c, c ≠ [] ∧ AllProper (a ++ c) ∧ p = ofNames (a ++ c) ∧ m.contains p := by
  rw [h.mem_children_iff hs ha]
  constructor
  · rintro ⟨hstored, b, hb, rfl, ⟨c, rfl⟩, hne⟩
    exact ⟨c, fun hnil => hne (by simp [hnil]), hb, rfl, hstored⟩
  · rintro ⟨c, hcnil, hc, rfl, hstored⟩
    refine ⟨hstored, a ++ c, hc, rfl, List.prefix_append a c, ?_⟩
    exact fun heq => hcnil (List.self_eq_append_right.mp heq)

theorem IsTree.get?_moveBelow (h : m.IsTree) (hs : m.IsSorted) (ha : AllProper a)
    (ht : AllProper target) (hat : ¬ a <+: target) (hta : ¬ target <+: a) :
    (∀ p ∈ m.children (ofNames a),
      ((m.children (ofNames a)).foldl (fun m p => m.move p (place a target p)) m).get?
        (place a target p) = m.get? p) ∧
      ∀ q, (∀ p ∈ m.children (ofNames a), q ≠ place a target p) →
        ((m.children (ofNames a)).foldl (fun m p => m.move p (place a target p)) m).get? q =
          if q ∈ m.children (ofNames a) then none else m.get? q := by
  have hanil : a ≠ [] := fun hnil => hat (hnil ▸ List.nil_prefix)
  have htnil : target ≠ [] := fun hnil => hta (hnil ▸ List.nil_prefix)
  apply get?_foldl_move
  · exact nodup_children hs (ofNames a)
  · intro p hp q hq heq
    obtain ⟨c, -, hc, rfl, -⟩ := (h.mem_children_append_iff hs ha).mp hp
    obtain ⟨d, -, hd, rfl, -⟩ := (h.mem_children_append_iff hs ha).mp hq
    rw [place_append hanil htnil, place_append hanil htnil,
      ofNames_inj (allProper_append_of_append ht hc) (allProper_append_of_append ht hd)] at heq
    rw [List.append_cancel_left heq]
  · intro p hp hp'
    obtain ⟨c, -, hc, rfl, -⟩ := (h.mem_children_append_iff hs ha).mp hp
    obtain ⟨d, -, hd, heq, -⟩ := (h.mem_children_append_iff hs ha).mp hp'
    rw [place_append hanil htnil] at heq
    exact ofNames_append_ne_of_apart hat hta hd (allProper_append_of_append ht hc) heq.symm
  · intro p hp
    obtain ⟨c, -, -, -, hstored⟩ := (h.mem_children_append_iff hs ha).mp hp
    exact hstored

theorem IsTree.moveBelow (h : m.IsTree) (hs : m.IsSorted) (ha : AllProper a)
    (ht : AllProper target) (hat : ¬ a <+: target) (hta : ¬ target <+: a)
    (hfree : m.get? (ofNames target) = none) :
    m.MovedBelow a target
      ((m.children (ofNames a)).foldl (fun m p => m.move p (place a target p)) m) := by
  have hanil : a ≠ [] := fun hnil => hat (hnil ▸ List.nil_prefix)
  have htnil : target ≠ [] := fun hnil => hta (hnil ▸ List.nil_prefix)
  obtain ⟨hmoved, hstay⟩ := h.get?_moveBelow hs ha ht hat hta
  have hplaced : ∀ q, (∀ c, c ≠ [] → AllProper (target ++ c) → q = ofNames (target ++ c) →
      ¬ m.contains (ofNames (a ++ c))) → ∀ p ∈ m.children (ofNames a), q ≠ place a target p := by
    intro q hq p hp heq
    obtain ⟨c, hcnil, hc, rfl, hstored⟩ := (h.mem_children_append_iff hs ha).mp hp
    rw [place_append hanil htnil] at heq
    exact hq c hcnil (allProper_append_of_append ht hc) heq hstored
  constructor
  · exact foldl_induction (fun m' => m'.lag = m.lag)
      (fun m' p hlag => (lag_move m' p _).trans hlag) _ rfl
  · exact foldl_induction IsSorted (fun m' p hsorted => hsorted.move p _) _ hs
  · intro c hcnil hc
    have hac : AllProper (a ++ c) := allProper_append_of_append ha hc
    by_cases hstored : m.contains (ofNames (a ++ c))
    · have hchild := (h.mem_children_append_iff hs ha).mpr ⟨c, hcnil, hac, rfl, hstored⟩
      rw [← place_append hanil htnil c, hmoved _ hchild]
    · have hnone := h.get?_eq_none_of_none hfree hc (List.prefix_append target c)
      rw [hstay, hnone, ite_self, not_contains_iff.mp hstored]
      apply hplaced
      intro d _ hd heq
      rw [ofNames_inj hc hd] at heq
      rwa [← List.append_cancel_left heq]
  · intro c hcnil hc
    rw [hstay]
    · split
      · rfl
      · rename_i hnot
        rw [← not_contains_iff]
        intro hstored
        exact hnot ((h.mem_children_append_iff hs ha).mpr ⟨c, hcnil, hc, rfl, hstored⟩)
    · apply hplaced
      intro d _ hd heq
      exact absurd heq (ofNames_append_ne_of_apart hat hta hc hd)
  · intro p hpa hpt
    rw [hstay, if_neg]
    · intro hp
      obtain ⟨c, hcnil, hc, heq, -⟩ := (h.mem_children_append_iff hs ha).mp hp
      exact hpa c hcnil hc heq
    · apply hplaced
      intro c hcnil hc heq
      exact absurd heq (hpt c hcnil hc)

/-- What the service is after a path has been moved with everything below it, once the directories
above its new place are there. -/
structure Moved (m grown : Memory) (a target : List Name) (m' : Memory) : Prop where
  lag : m'.lag = m.lag
  sorted : m'.IsSorted
  onto : ∀ c, AllProper (target ++ c) →
    m'.get? (ofNames (target ++ c)) = m.get? (ofNames (a ++ c))
  off : ∀ c, AllProper (a ++ c) → m'.get? (ofNames (a ++ c)) = none
  other : ∀ p, (∀ c, AllProper (a ++ c) → p ≠ ofNames (a ++ c)) →
    (∀ c, AllProper (target ++ c) → p ≠ ofNames (target ++ c)) → m'.get? p = grown.get? p

variable {names : List Name} {name : Name}

theorem Grown.get?_of_not_isPrefix (hm' : m.Grown names m') (hnames : AllProper names)
    {b : List Name} (hb : AllProper b) (hnot : ¬ b <+: names) :
    m'.get? (ofNames b) = m.get? (ofNames b) := by
  refine hm'.other _ ?_
  intro c hc heq
  rw [ofNames_inj hb (hnames.of_isPrefix hc)] at heq
  exact hnot (heq ▸ hc)

theorem MovedBelow.get?_self {moved : Memory} (h : m.MovedBelow a target moved) (ha : AllProper a)
    (hta : ¬ target <+: a) : moved.get? (ofNames a) = m.get? (ofNames a) := by
  apply h.other
  · intro c hcnil hc heq
    exact hcnil (List.self_eq_append_right.mp ((ofNames_inj ha hc).mp heq))
  · intro c _ hc heq
    rw [ofNames_inj ha hc] at heq
    exact hta (heq ▸ List.prefix_append target c)

/-- The path itself follows when everything below it has been moved. -/
theorem MovedBelow.move {moved : Memory} (h : m.MovedBelow a target moved) (ha : AllProper a)
    (ht : AllProper target) (hat : ¬ a <+: target) (hta : ¬ target <+: a)
    (hp : m.contains (ofNames a)) :
    m.Moved m a target (moved.move (ofNames a) (ofNames target)) := by
  obtain ⟨e, he⟩ := contains_iff.mp hp
  have hself : moved.get? (ofNames a) = some e := (h.get?_self ha hta).trans he
  constructor
  · rw [lag_move, h.lag]
  · exact h.sorted.move _ _
  · intro c hc
    rw [get?_move moved hself]
    rcases eq_or_ne c [] with rfl | hcnil
    · rw [List.append_nil, List.append_nil, if_pos rfl, he]
    · rw [if_neg, if_neg, h.onto c hcnil hc]
      · rw [ofNames_inj hc ha]
        exact fun heq => hta (heq ▸ List.prefix_append target c)
      · rw [ofNames_inj hc ht]
        exact fun heq => hcnil (List.append_right_eq_self.mp heq)
  · intro c hc
    rw [get?_move moved hself, if_neg]
    · rcases eq_or_ne c [] with rfl | hcnil
      · rw [List.append_nil, if_pos rfl]
      · rw [h.off c hcnil hc, ite_self]
    · rw [ofNames_inj hc ht]
      exact fun heq => hat (heq ▸ List.prefix_append a c)
  · intro p hpa hpt
    rw [get?_move moved hself, if_neg, if_neg, h.other p]
    · exact fun c _ hc => hpa c hc
    · exact fun c _ hc => hpt c hc
    · simpa using hpa [] (by simpa using ha)
    · simpa using hpt [] (by simpa using ht)

theorem Moved.of_grown (h : grown.Moved grown a target m') (hgrown : m.Grown names grown)
    (hnames : AllProper names) (ha : AllProper a) (hbelow : ¬ a <+: names) :
    m.Moved grown a target m' := by
  refine ⟨h.lag.trans hgrown.lag, h.sorted, ?_, h.off, h.other⟩
  intro c hc
  have hac : AllProper (a ++ c) := allProper_append_of_append ha hc
  rw [h.onto c hc, hgrown.get?_of_not_isPrefix hnames hac]
  exact fun hpre => hbelow ((List.prefix_append a c).trans hpre)

theorem IsTree.rename (h : m.IsTree) (hs : m.IsSorted) (ha : AllProper a)
    (hp : m.contains (ofNames a)) (hnames : AllProper (names ++ [name]))
    (hfree : ¬ m.contains (ofNames (names ++ [name]))) (hbelow : ¬ a <+: names ++ [name])
    (hopen : m.IsOpen names) :
    ∃ grown m', m.Grown names grown ∧
      m.rename (ofNames a) (ofNames (names ++ [name])) = some (.ok .yes, m') ∧
        m.Moved grown a (names ++ [name]) m' := by
  have hup := (allProper_append_singleton.mp hnames).1
  obtain ⟨grown, hmake, hgrown⟩ := makeDirectories_of_isOpen h.hasParents hup hopen
  have habove : ¬ names ++ [name] <+: a := fun hpre =>
    hfree (h.contains_of_isPrefix ha hp hpre)
  have hbelow' : ¬ a <+: names := fun hpre => hbelow (hpre.trans (List.prefix_append _ _))
  have hfree' : grown.get? (ofNames (names ++ [name])) = none := by
    rw [hgrown.get?_of_not_isPrefix hup hnames (not_append_singleton_isPrefix names name)]
    exact not_contains_iff.mp hfree
  have hp' : grown.contains (ofNames a) := by
    obtain ⟨e, he⟩ := contains_iff.mp hp
    exact contains_iff.mpr ⟨e, hgrown.kept _ e he⟩
  have hmoved := (hgrown.isTree h hup hopen).moveBelow (hgrown.sorted hs) ha hnames hbelow habove
    hfree'
  have hthere := hmoved.get?_self ha habove
  refine ⟨grown, _, hgrown, ?_,
    (hmoved.move ha hnames hbelow habove hp').of_grown hgrown hup ha hbelow'⟩
  rw [Memory.rename, if_neg (by simpa using hp), if_neg hfree, directory_ofNames hnames, hmake]
  refine if_pos ?_
  rw [contains_iff] at hp' ⊢
  rwa [← hthere] at hp'

theorem Moved.hasDirectory (hm' : m.Moved grown a target m') {b : List Name} (hb : AllProper b)
    (hab : ¬ a <+: b) (htb : ¬ target <+: b) (hdir : grown.HasDirectory (ofNames b)) :
    m'.HasDirectory (ofNames b) := by
  obtain ⟨e, he, hdir⟩ := hdir
  refine ⟨e, ?_, hdir⟩
  rw [hm'.other _ ?_ ?_, he]
  · intro c hc heq
    rw [ofNames_inj hb hc] at heq
    exact hab (heq ▸ List.prefix_append a c)
  · intro c hc heq
    rw [ofNames_inj hb hc] at heq
    exact htb (heq ▸ List.prefix_append target c)

theorem Moved.hasDirectory_onto (hm' : m.Moved grown a (names ++ [name]) m') (h : m.IsTree)
    (hgrown : m.Grown names grown) (hopen : m.IsOpen names) (ha : AllProper a)
    (hnames : AllProper (names ++ [name])) (hbelow : ¬ a <+: names ++ [name]) {c : List Name}
    (hc : AllProper (names ++ [name] ++ c)) (hp : m'.contains (ofNames (names ++ [name] ++ c))) :
    ∃ ns n, AllProper (ns ++ [n]) ∧ names ++ [name] ++ c = ns ++ [n] ∧
      m'.HasDirectory (ofNames ns) := by
  have hup := (allProper_append_singleton.mp hnames).1
  cases c using List.reverseRecOn with
  | nil =>
      rw [List.append_nil]
      refine ⟨names, name, hnames, rfl, hm'.hasDirectory hup ?_ ?_ ?_⟩
      · exact fun hpre => hbelow (hpre.trans (List.prefix_append _ _))
      · exact not_append_singleton_isPrefix names name
      · exact hgrown.hasDirectory_of_isPrefix hopen List.prefix_rfl
  | append_singleton c n =>
      rw [contains_iff, hm'.onto _ hc, ← contains_iff, ← List.append_assoc] at hp
      have hac : AllProper (a ++ c ++ [n]) := by
        rw [List.append_assoc]
        exact allProper_append_of_append ha hc
      obtain ⟨e, he, hdir⟩ := h.hasDirectory_of_append hac hp
      rw [← List.append_assoc] at hc ⊢
      refine ⟨names ++ [name] ++ c, n, hc, rfl, e, ?_, hdir⟩
      rw [hm'.onto c (allProper_append_singleton.mp hc).1, he]

theorem Moved.isTree (hm' : m.Moved grown a (names ++ [name]) m') (h : m.IsTree)
    (hgrown : m.Grown names grown) (hopen : m.IsOpen names) (ha : AllProper a) (hanil : a ≠ [])
    (hnames : AllProper (names ++ [name])) (hbelow : ¬ a <+: names ++ [name]) : m'.IsTree := by
  have hup := (allProper_append_singleton.mp hnames).1
  have htree := hgrown.isTree h hup hopen
  refine isTree_iff.mpr ⟨?_, ?_⟩
  · refine hm'.hasDirectory (List.forall_mem_nil _) ?_ ?_ htree.root
    · exact fun hpre => hanil (List.prefix_nil.mp hpre)
    · exact fun hpre => by simpa using List.prefix_nil.mp hpre
  · intro p hp hne
    by_cases hoff : ∃ c, AllProper (a ++ c) ∧ p = ofNames (a ++ c)
    · obtain ⟨c, hc, rfl⟩ := hoff
      exact absurd hp (not_contains_iff.mpr (hm'.off c hc))
    · by_cases honto : ∃ c, AllProper (names ++ [name] ++ c) ∧ p = ofNames (names ++ [name] ++ c)
      · obtain ⟨c, hc, rfl⟩ := honto
        obtain ⟨ns, n, hns, heq, hdir⟩ :=
          hm'.hasDirectory_onto h hgrown hopen ha hnames hbelow hc hp
        exact ⟨ns, n, hns, heq ▸ rfl, hdir⟩
      · have hother : ∀ {b}, (∀ c, AllProper (b ++ c) → p ≠ ofNames (b ++ c)) ↔
            ¬ ∃ c, AllProper (b ++ c) ∧ p = ofNames (b ++ c) := by
          intro b
          simp only [not_exists, not_and, ne_eq]
        rw [contains_iff, hm'.other p (hother.mpr hoff) (hother.mpr honto), ← contains_iff] at hp
        obtain ⟨ns, n, hns, rfl, hdir⟩ := (isTree_iff.mp htree).2 p hp hne
        refine ⟨ns, n, hns, rfl, ?_⟩
        apply hm'.hasDirectory (allProper_append_singleton.mp hns).1 ?_ ?_ hdir
        · rintro ⟨c, rfl⟩
          exact hoff ⟨c ++ [n], by simpa using hns, by simp⟩
        · rintro ⟨c, rfl⟩
          exact honto ⟨c ++ [n], by simpa using hns, by simp⟩

end Rename

end StorageLoad.Memory
