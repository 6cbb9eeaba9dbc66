import Mathlib.Logic.Function.Basic
import StorageLoad.Proofs.Local.Failure

/-!
Whether the remembered factors follow the tree.  The service on a host's file tree remembers a
factor under the path it was given for, forgets it when that very path is removed, and carries it
over when that very path is renamed.  So after a history of calls with normalised paths every
remembered path is stored, and every file has the factor that was last given for it, exactly if no
call has removed or renamed a directory with a remembered path below it (`followsTree_iff`).  The
paths are of names that the host tells as they are given: a file that is removed under another
spelling of its name would still be remembered under the first.
-/

namespace StorageLoad.Local

open StorageLoad.Path
open StorageLoad.Host

/-- The names of a path that are not empty. -/
def rowOf (p : Path) : List Name :=
  (names p).filter (· ≠ [])

/-- The factors that have been given for files and directories, by their names: a call that makes
a file or sets a factor gives one, a removal takes away those of everything that is removed, and a
rename takes along those of everything that is renamed. -/
def remember (given : List Name → Option Value) :
    Request → Except StoreFault Reply → List Name → Option Value
  | .create p _ replication _, .ok _ => Function.update given (rowOf p) (some replication)
  | .setReplication p factor, .ok _ => Function.update given (rowOf p) (some factor)
  | .delete p, .ok _ => fun ns => if rowOf p <+: ns then none else given ns
  | .rename source target, .ok (.value (.bool true)) => fun ns =>
      if rowOf target <+: ns then given (rowOf source ++ ns.drop (rowOf target).length)
      else if rowOf source <+: ns then none else given ns
  | _, _ => given

/-- The factors that have been given in a history of calls. -/
def given (calls : List (Request × Except StoreFault Reply)) : List Name → Option Value :=
  calls.foldl (fun given call => remember given call.1 call.2) fun _ => none

/-- Every remembered path is stored, and the factor that has been given for a file is the one that
is told. -/
structure FollowsTree (s : Local) (given : List Name → Option Value) : Prop where
  stored : ∀ p ∈ s.factors.keys, s.isStored p
  told : ∀ ns data factor, AllCanonical ns → s.find? (ofNames ns) = some (.file data) →
    given ns = some factor → s.getReplication (ofNames ns) = (.ok (.value factor), s)

/-- A path below the names is remembered. -/
def HasBelow (factors : Table Path Value) (a : List Name) : Prop :=
  ∃ c, c ≠ [] ∧ AllCanonical (a ++ c) ∧ ofNames (a ++ c) ∈ factors.keys

/-- The call removes or renames a directory with a remembered path below it. -/
def Uproots (s : Local) (request : Request) : Prop :=
  ∃ a, HasBelow s.factors a ∧ (request = .delete (ofNames a) ∨
    ∃ target, request = .rename (ofNames a) target ∧ (s.answer request).1 = .ok .yes)

variable {s s' : Local} {g : List Name → Option Value} {a c ns : List Name} {p : Path}
  {name : Name} {request : Request} {answer : Except StoreFault Reply} {tree : Tree}
  {place : Place}

theorem rowOf_ofNames (h : AllCanonical ns) : rowOf (ofNames ns) = ns :=
  (leadsTo_ofNames h).filter_names

section Stored

theorem isStored_iff (h : s.tree.IsTree) (hns : AllCanonical ns) : s.isStored (ofNames ns) ↔
    Accepts s.root (Local.names (ofNames ns)) ∧ s.tree.get? s.root = some .directory ∧
      s.tree.contains (s.root ++ ns) := by
  constructor
  · intro hstored
    obtain ⟨hlocate, hcontains⟩ := of_isStored (leadsTo_ofNames hns) hstored
    exact ⟨Tree.accepts_of_locate_eq_ok hlocate, directory_of_locate hlocate, hcontains⟩
  · rintro ⟨haccepts, hroot, hcontains⟩
    rw [isStored, find?, Tree.find?,
      locate_of_contains h hroot (leadsTo_ofNames hns) haccepts hcontains]
    exact hcontains

theorem accepts_names_of_isPrefix {base : Place} (hns : AllCanonical ns) (hac : a <+: ns)
    (haccepts : Accepts base (Local.names (ofNames ns))) :
    Accepts base (Local.names (ofNames a)) := by
  rcases eq_or_ne ns [] with rfl | hne
  · rwa [List.prefix_nil.mp hac]
  rw [(leadsTo_ofNames hns).names_eq_of_ne_nil hne] at haccepts
  rcases eq_or_ne a [] with rfl | hne'
  · obtain ⟨name, rest, rfl⟩ := List.exists_cons_of_ne_nil hne
    obtain ⟨-, hsize⟩ := checkText_eq_ok_iff.mp haccepts.1
    rw [ofNames_nil, names_slash]
    refine ⟨checkText_eq_ok_iff.mpr ⟨rfl, ?_⟩, by simp [nameSize]⟩
    rw [textSize_append] at hsize ⊢
    simp only [textSize, List.map_cons, List.foldr_cons, nameSize] at hsize ⊢
    simp only [List.map_nil, List.foldr_nil]
    omega
  · rw [(leadsTo_ofNames (hns.of_isPrefix hac)).names_eq_of_ne_nil hne']
    exact haccepts.of_isPrefix hac

theorem isStored_of_isPrefix (h : s.tree.IsTree) (hns : AllCanonical ns) (hac : a <+: ns)
    (hstored : s.isStored (ofNames ns)) : s.isStored (ofNames a) := by
  obtain ⟨haccepts, hroot, hcontains⟩ := (isStored_iff h hns).mp hstored
  refine (isStored_iff h (hns.of_isPrefix hac)).mpr
    ⟨accepts_names_of_isPrefix hns hac haccepts, hroot, ?_⟩
  rcases eq_or_ne a ns with rfl | hne
  · exact hcontains
  · exact Tree.contains_of_get? (h.directory_below hcontains hac hne)

theorem of_entryPlace? {t : Tree} {base : Place} {row : List Name}
    (h : t.entryPlace? base row = some place) :
    t.locate base row = .ok place ∧ t.contains place := by
  rw [Tree.entryPlace?] at h
  split at h
  · cases h
  · obtain ⟨hlocate, htest⟩ := Option.filter_eq_some_iff.mp h
    rw [Bool.and_eq_true] at htest
    refine ⟨?_, htest.2⟩
    cases hwalk : t.locate base row with
    | error cause =>
        rw [hwalk] at hlocate
        cases hlocate
    | ok place' =>
        rw [hwalk] at hlocate
        rw [Option.some.inj hlocate]

theorem get?_erase_of_not_isPrefix (t : Tree) (base : Place) (hout : ¬ a <+: ns) :
    (t.erase (base ++ a)).get? base = t.get? base ∧
    (t.erase (base ++ a)).get? (base ++ ns) = t.get? (base ++ ns) := by
  rw [Tree.get?_erase, Tree.get?_erase, if_neg, if_neg]
  · exact ⟨rfl, rfl⟩
  · exact fun hpre => hout ((List.prefix_append_right_inj base).mp hpre)
  · intro hpre
    have hnil :=
      List.append_right_eq_self.mp
        ((List.prefix_append base a).eq_of_length_le hpre.length_le).symm
    exact hout (hnil ▸ List.nil_prefix)

theorem get?_move_of_not_isPrefix {t : Tree} (h : t.IsTree) (base : Place) {b : List Name}
    (hout : ¬ b <+: ns) :
    (t.move (base ++ a) (base ++ b)).get? (base ++ ns) =
      (t.erase (base ++ a)).get? (base ++ ns) := by
  refine h.get?_move_of_none fun c heq => ?_
  rw [List.append_assoc, List.append_right_inj] at heq
  exact absurd (heq ▸ List.prefix_append b c) hout

end Stored

/-- What the table of factors holds while it follows the tree. -/
structure Remembers (s : Local) (g : List Name → Option Value) : Prop where
  normal : ∀ p ∈ s.factors.keys, p.IsCanonical
  stored : ∀ ns, AllCanonical ns → ofNames ns ∈ s.factors.keys → s.isStored (ofNames ns)
  factor : ∀ ns, AllCanonical ns → s.factors.get? (ofNames ns) = g ns

theorem Remembers.followsTree (h : s.Remembers g) : s.FollowsTree g := by
  constructor
  · intro p hp
    obtain ⟨ns, hns, rfl⟩ := h.normal p hp
    exact h.stored ns hns hp
  · intro ns data factor hns hfind hgiven
    rw [getReplication, isStored, hfind, h.factor ns hns, hgiven]
    rfl

section Keys

variable {t : Table Path Value} {k l : Path} {v : Value}

theorem mem_keys_iff : k ∈ t.keys ↔ t.get? k ≠ none := by
  rw [← Table.contains_iff_mem_keys, Table.contains, Option.isSome_iff_ne_none]

theorem mem_keys_insert_iff : k ∈ (t.insert l v).keys ↔ k = l ∨ k ∈ t.keys := by
  rw [mem_keys_iff, mem_keys_iff, Table.get?_insert]
  split <;> simp [*]

theorem mem_keys_erase_iff : k ∈ (t.erase l).keys ↔ k ≠ l ∧ k ∈ t.keys := by
  rw [mem_keys_iff, mem_keys_iff, Table.get?_erase]
  split <;> simp [*]

theorem carryFactor_of_none (h : t.get? l = none) (target : Path) :
    carryFactor t l target = t := by
  rw [carryFactor, h]

theorem get?_carryFactor_of_some (h : t.get? l = some v) (target : Path) :
    (carryFactor t l target).get? k = if k = target then some v else if k = l then none
      else t.get? k := by
  rw [carryFactor, h]
  dsimp only
  rw [Table.get?_insert, Table.get?_erase]

theorem get?_carryFactor {target : Path} (hfree : t.get? target = none) :
    (carryFactor t l target).get? k = if k = target then t.get? l else if k = l then none
      else t.get? k := by
  cases hfactor : t.get? l with
  | none =>
      rw [carryFactor_of_none hfactor]
      grind
  | some v => exact get?_carryFactor_of_some hfactor target

theorem mem_keys_carryFactor_iff (target : Path) :
    k ∈ (carryFactor t l target).keys ↔ (k = target ∧ l ∈ t.keys) ∨ (k ≠ l ∧ k ∈ t.keys) := by
  cases hfactor : t.get? l with
  | none =>
      rw [carryFactor_of_none hfactor, mem_keys_iff, mem_keys_iff]
      grind
  | some v =>
      rw [mem_keys_iff, get?_carryFactor_of_some hfactor, mem_keys_iff, mem_keys_iff]
      grind

theorem not_isPrefix_of_mem_keys (hbelow : ¬ HasBelow t a) (hns : AllCanonical ns) (hne : ns ≠ a)
    (hkey : ofNames ns ∈ t.keys) : ¬ a <+: ns := by
  rintro ⟨c, rfl⟩
  refine hbelow ⟨c, ?_, hns, hkey⟩
  rintro rfl
  exact hne (List.append_nil a)

end Keys

namespace Remembers

/-- Directories stay directories, and something stays wherever something is. -/
def Covers (t t' : Tree) : Prop :=
  ∀ k, (t.get? k = some .directory → t'.get? k = some .directory) ∧ (t.contains k → t'.contains k)

theorem covers_of_extended {P : Place → Prop} {t t' : Tree} (h : t.Extended P t') :
    Covers t t' := by
  refine fun k => ⟨h.get?_of_some, fun hk => ?_⟩
  obtain ⟨node, hnode⟩ := Tree.contains_iff.mp hk
  exact Tree.contains_of_get? (h.get?_of_some hnode)

theorem covers_insert_file {t : Tree} (hfree : t.get? place ≠ some .directory) (data : Bytes) :
    Covers t (t.insert place (.file data)) := by
  intro k
  rw [Tree.contains_iff, Tree.contains_iff, Tree.get?_insert]
  split
  · rename_i heq
    subst heq
    exact ⟨fun hdir => absurd hdir hfree, fun _ => ⟨_, rfl⟩⟩
  · exact ⟨id, id⟩

theorem isStored_of_covers (h : s.tree.IsTree) (h' : tree.IsTree) (hcovers : Covers s.tree tree)
    (hns : AllCanonical ns) (hstored : s.isStored (ofNames ns)) :
    isStored { s with tree } (ofNames ns) := by
  obtain ⟨haccepts, hroot, hcontains⟩ := (isStored_iff h hns).mp hstored
  exact (isStored_iff h' hns).mpr ⟨haccepts, (hcovers s.root).1 hroot, (hcovers _).2 hcontains⟩

variable (h : s.Remembers g)

include h

theorem of_covers (hs : s.tree.IsTree) (htree : tree.IsTree) (hcovers : Covers s.tree tree) :
    Remembers { s with tree } g :=
  ⟨h.normal, fun ns hns hkey =>
    isStored_of_covers hs htree hcovers hns (h.stored ns hns hkey), h.factor⟩

theorem insert (ha : AllCanonical a) (hstored : s.isStored (ofNames a)) (factor : Value) :
    Remembers { s with factors := s.factors.insert (ofNames a) factor }
      (Function.update g a (some factor)) := by
  refine ⟨fun p hp => ?_, fun ns hns hkey => ?_, fun ns hns => ?_⟩
  · rcases mem_keys_insert_iff.mp hp with rfl | hp
    · exact isCanonical_ofNames ha
    · exact h.normal p hp
  · rcases mem_keys_insert_iff.mp hkey with heq | hkey
    · rw [heq]
      exact hstored
    · exact h.stored ns hns hkey
  · change (s.factors.insert (ofNames a) factor).get? (ofNames ns) = _
    rw [Table.get?_insert, Function.update_apply, h.factor ns hns]
    simp only [ofNames_inj hns.proper ha.proper]

theorem clear (hs : s.tree.IsTree) (hbelow : ¬ HasBelow s.factors a) :
    Remembers { s with tree := s.tree.clear (s.root ++ a) } g := by
  refine ⟨h.normal, fun ns hns hkey => ?_, h.factor⟩
  obtain ⟨haccepts, hroot, hcontains⟩ := (isStored_iff hs hns).mp (h.stored ns hns hkey)
  refine (isStored_iff (hs.clear _) hns).mpr ⟨haccepts, ?_, ?_⟩
  · change (s.tree.clear (s.root ++ a)).get? s.root = _
    rw [Tree.get?_clear, if_neg, hroot]
    rintro ⟨hpre, hne⟩
    exact hne ((List.prefix_append s.root a).eq_of_length_le hpre.length_le)
  · change (s.tree.clear (s.root ++ a)).contains (s.root ++ ns)
    rw [Tree.contains_iff, Tree.get?_clear, if_neg, ← Tree.contains_iff]
    · exact hcontains
    · rintro ⟨hpre, hne⟩
      refine not_isPrefix_of_mem_keys hbelow hns ?_ hkey
        ((List.prefix_append_right_inj s.root).mp hpre)
      rintro rfl
      exact hne rfl

theorem erase (hs : s.tree.IsTree) (ha : AllCanonical a) (hbelow : ¬ HasBelow s.factors a) :
    Remembers
      { s with tree := s.tree.erase (s.root ++ a), factors := s.factors.erase (ofNames a) }
      fun ns => if a <+: ns then none else g ns := by
  refine ⟨fun p hp => h.normal p (mem_keys_erase_iff.mp hp).2, fun ns hns hkey => ?_,
    fun ns hns => ?_⟩
  · obtain ⟨hne, hkey⟩ := mem_keys_erase_iff.mp hkey
    have hout := not_isPrefix_of_mem_keys hbelow hns (fun heq => hne (heq ▸ rfl)) hkey
    obtain ⟨haccepts, hroot, hcontains⟩ := (isStored_iff hs hns).mp (h.stored ns hns hkey)
    obtain ⟨hroot', hplace⟩ := get?_erase_of_not_isPrefix s.tree s.root hout
    refine (isStored_iff (hs.erase _) hns).mpr ⟨haccepts, hroot'.trans hroot, ?_⟩
    rwa [Tree.contains_iff, hplace, ← Tree.contains_iff]
  · change (s.factors.erase (ofNames a)).get? (ofNames ns) = _
    rw [Table.get?_erase]
    by_cases heq : ns = a
    · subst heq
      rw [if_pos rfl, if_pos List.prefix_rfl]
    · rw [if_neg ((ofNames_inj hns.proper ha.proper).not.mpr heq), h.factor ns hns]
      split
      · rename_i hpre
        rw [← h.factor ns hns]
        by_contra hkey
        exact not_isPrefix_of_mem_keys hbelow hns heq (mem_keys_iff.mpr hkey) hpre
      · rfl

theorem get?_carryFactor_ofNames {b : List Name} (ha : AllCanonical a) (hb : AllCanonical b)
    (hbelow : ¬ HasBelow s.factors a)
    (hfree : ∀ c, AllCanonical (b ++ c) → ofNames (b ++ c) ∉ s.factors.keys)
    (hns : AllCanonical ns) : (carryFactor s.factors (ofNames a) (ofNames b)).get? (ofNames ns) =
      if b <+: ns then g (a ++ ns.drop b.length) else if a <+: ns then none else g ns := by
  have hnone : ∀ k, k ∉ s.factors.keys → s.factors.get? k = none := fun k hk => by
    rwa [mem_keys_iff, not_not] at hk
  have hgone : ∀ c, c ≠ [] → AllCanonical (a ++ c) → g (a ++ c) = none := fun c hc hac =>
    (h.factor _ hac).symm.trans (hnone _ fun hkey => hbelow ⟨c, hc, hac, hkey⟩)
  have htarget : s.factors.get? (ofNames b) = none :=
    hnone _ (by simpa using hfree [] (by simpa using hb))
  rw [get?_carryFactor htarget]
  simp only [ofNames_inj hns.proper ha.proper, ofNames_inj hns.proper hb.proper]
  rcases em (b <+: ns) with hpre | hout
  · rw [if_pos hpre]
    obtain ⟨c, rfl⟩ := hpre
    rw [List.drop_left]
    rcases eq_or_ne c [] with rfl | hc
    · rw [List.append_nil, if_pos rfl, List.append_nil, h.factor a ha]
    · have hac := List.forall_mem_append.mpr ⟨ha, (List.forall_mem_append.mp hns).2⟩
      rw [hgone c hc hac, if_neg (by simpa using hc), hnone _ (hfree c hns), ite_self]
  · have hother : ns ≠ b := fun heq => hout (heq ▸ List.prefix_rfl)
    rw [if_neg hout, if_neg hother]
    rcases eq_or_ne ns a with rfl | hne
    · rw [if_pos rfl, if_pos List.prefix_rfl]
    · rw [if_neg hne]
      split
      · rename_i hpre
        obtain ⟨c, rfl⟩ := hpre
        rw [h.factor _ hns]
        exact hgone c (by simpa using hne) hns
      · exact h.factor ns hns

theorem move (hs : s.tree.IsTree) {b : List Name}
    (htree : Tree.IsTree (s.tree.move (s.root ++ a) (s.root ++ b)))
    (ha : AllCanonical a) (hb : AllCanonical b) (hstored : s.isStored (ofNames a))
    (hnot : ¬ a <+: b) (hbelow : ¬ HasBelow s.factors a)
    (hfree : ∀ c, AllCanonical (b ++ c) → ofNames (b ++ c) ∉ s.factors.keys)
    (haccepts : Accepts s.root (Local.names (ofNames b))) (hbnil : b ≠ []) :
    Remembers { s with
        tree := s.tree.move (s.root ++ a) (s.root ++ b)
        factors := carryFactor s.factors (ofNames a) (ofNames b) }
      fun ns => if b <+: ns then g (a ++ ns.drop b.length) else if a <+: ns then none
        else g ns := by
  obtain ⟨-, hroot, hcontains⟩ := (isStored_iff hs ha).mp hstored
  have hroot' : (s.tree.move (s.root ++ a) (s.root ++ b)).get? s.root = some .directory := by
    have hself := get?_move_of_not_isPrefix (a := a) hs s.root fun hpre =>
      hbnil (List.prefix_nil.mp hpre)
    rw [List.append_nil] at hself
    rw [hself, (get?_erase_of_not_isPrefix s.tree s.root hnot).1, hroot]
  refine ⟨fun p hp => ?_, fun ns hns hkey => (isStored_iff htree hns).mpr ?_,
    fun ns hns => h.get?_carryFactor_ofNames ha hb hbelow hfree hns⟩
  · rcases (mem_keys_carryFactor_iff _).mp hp with ⟨rfl, -⟩ | ⟨-, hp⟩
    · exact isCanonical_ofNames hb
    · exact h.normal p hp
  · rcases (mem_keys_carryFactor_iff _).mp hkey with ⟨heq, -⟩ | ⟨hne, hkey⟩
    · obtain rfl := (ofNames_inj hns.proper hb.proper).mp heq
      refine ⟨haccepts, hroot', ?_⟩
      obtain ⟨node, hnode⟩ := Tree.contains_iff.mp hcontains
      rw [← List.append_nil (s.root ++ a)] at hnode
      have honto := hs.get?_move_onto (s.root ++ ns) hnode
      rw [List.append_nil] at honto
      exact Tree.contains_of_get? honto
    · have hout : ¬ b <+: ns := by
        rintro ⟨c, rfl⟩
        exact hfree c hns hkey
      have hout' := not_isPrefix_of_mem_keys hbelow hns (fun heq => hne (heq ▸ rfl)) hkey
      obtain ⟨haccepts', -, hcontains'⟩ := (isStored_iff hs hns).mp (h.stored ns hns hkey)
      refine ⟨haccepts', hroot', ?_⟩
      rwa [Tree.contains_iff, get?_move_of_not_isPrefix hs s.root hout,
        (get?_erase_of_not_isPrefix s.tree s.root hout').2, ← Tree.contains_iff]

end Remembers

section Calls

theorem remember_error (fault : StoreFault) : remember g request (.error fault) = g := by
  cases request <;> rfl

theorem locate_of_fileTarget {t : Tree} {base : Place} {row : List Name}
    (h : t.fileTarget base row = .ok place) :
    t.locate base row = .ok place := by
  refine Tree.locate_eq_ok_iff.mpr ⟨?_, (Tree.of_fileTarget_eq_ok h).1⟩
  rw [Tree.fileTarget] at h
  cases hcheck : checkText base row with
  | error cause =>
      rw [hcheck] at h
      cases h
  | ok _ => rfl

theorem obstruct_fst (s : Local) (what : Refusal) (cause : Obstacle) :
    ∃ fault, (s.obstruct what cause).1 = .error fault := by
  rw [obstruct]
  split
  · exact ⟨_, rfl⟩
  · exact ⟨_, rfl⟩

/-- A rename comes to a move from one place of the host to another. -/
structure Moves (s : Local) (source target : Path) (tree : Tree) (start goal : Place) : Prop where
  answer : s.rename source target = (.ok .yes,
    { s with tree := tree.move start goal, factors := carryFactor s.factors source target })
  stored : s.isStored source
  free : ¬ s.isStored target
  extended : s.tree.Extended (fun _ => True) tree
  entry : tree.entryPlace? s.root (Local.names source) = some start
  seat : renameTarget { s with tree } target = .ok goal
  allowed : canMove { s with tree } start goal ((Local.names target).getLast? = some [])

/-- A rename moves something or comes to nothing; then new directories may be left. -/
theorem IsSound.rename_cases (hs : s.IsSound) (source target : Path) :
    (ComesToNothing (s.rename source target).1 ∧ ∃ tree, s.tree.Extended (fun _ => True) tree ∧
        (s.rename source target).2 = { s with tree }) ∨
      ∃ tree start goal, s.Moves source target tree start goal := by
  have hext := hs.extended_makeDirectories (directoryNames target)
  have hself : s.tree.Extended (fun _ => True) s.tree := .refl hs.isTree
  generalize hrename : s.rename source target = result
  have hresult := hrename
  rw [Local.rename] at hrename
  dsimp only at hrename
  split at hrename
  · subst hrename
    exact .inl ⟨.inl ⟨_, rfl⟩, _, hself, rfl⟩
  · rename_i hstored
    split at hrename
    · subst hrename
      exact .inl ⟨.inr rfl, _, hself, rfl⟩
    · rename_i hfree
      split at hrename
      · rename_i cause tree hmake
        rw [hmake] at hext
        subst hrename
        exact .inl ⟨.inl (obstruct_fst _ _ _), tree, hext, obstruct_snd _ _ _⟩
      · rename_i tree hmake
        rw [hmake] at hext
        split at hrename
        · subst hrename
          exact .inl ⟨.inl (obstruct_fst _ _ _), tree, hext, obstruct_snd _ _ _⟩
        · subst hrename
          exact .inl ⟨.inl ⟨_, rfl⟩, tree, hext, rfl⟩
        · rename_i start goal hentry hgoal
          split at hrename
          · rename_i hallowed
            subst hrename
            exact .inr ⟨tree, start, goal, hresult, by simpa using hstored, hfree, hext, hentry,
              hgoal, hallowed⟩
          · subst hrename
            exact .inl ⟨.inl ⟨_, rfl⟩, tree, hext, rfl⟩

theorem Moves.places {b : List Name} {start goal : Place}
    (hm : s.Moves (ofNames a) (ofNames b) tree start goal) (ha : AllCanonical a)
    (hb : AllCanonical b) :
    start = s.root ++ a ∧ goal = s.root ++ b ∧ b ≠ [] ∧ Accepts s.root (Local.names (ofNames b)) ∧
    ¬ a <+: b := by
  obtain rfl := eq_of_locate (leadsTo_ofNames ha) (of_entryPlace? hm.entry).1
  have hseat := hm.seat
  simp only [renameTarget, (leadsTo_ofNames hb).filter_names] at hseat
  split at hseat
  · rename_i name hlast
    have hnil : b ≠ [] := by
      rintro rfl
      cases hlast
    split at hseat
    · cases hseat
    · obtain rfl := Tree.eq_of_walk_eq_ok hb.proper (Tree.locate_eq_ok_iff.mp hseat).2
      refine ⟨rfl, rfl, hnil, ?_, fun hpre => ?_⟩
      · rw [(leadsTo_ofNames hb).names_eq_of_ne_nil hnil]
        exact Tree.accepts_of_locate_eq_ok hseat
      · exact not_isPrefix_of_canMove hm.allowed ((List.prefix_append_right_inj s.root).mpr hpre)
  · cases hseat

theorem Moves.isTree_move {source target : Path} {start goal : Place}
    (hm : s.Moves source target tree start goal) :
    Tree.IsTree (tree.move start goal) := by
  obtain ⟨row, hrow, hlocate⟩ := locate_of_renameTarget_eq_ok hm.seat
  have hseated : tree.Seated goal :=
    hm.extended.isTree.seated_of_walk (fun hnil => absurd hnil hrow)
      (Tree.locate_eq_ok_iff.mp hlocate).2
  exact hm.extended.isTree.move hseated (not_isPrefix_of_canMove hm.allowed) fun c =>
    get?_below_eq_none_of_canMove hm.extended.isTree hm.allowed

namespace Remembers

variable (h : s.Remembers g) (hs : s.IsSound)

include h hs

theorem of_extended {P : Place → Prop} (hext : s.tree.Extended P tree) :
    Remembers { s with tree } g :=
  h.of_covers hs.isTree hext.isTree (covers_of_extended hext)

theorem obstruct {P : Place → Prop} (hext : s.tree.Extended P tree) (what : Refusal)
    (cause : Obstacle) :
    Remembers (Local.obstruct { s with tree } what cause).2
      (remember g request (Local.obstruct { s with tree } what cause).1) := by
  obtain ⟨fault, hfault⟩ := obstruct_fst { s with tree } what cause
  rw [hfault, remember_error, obstruct_snd]
  exact h.of_extended hs hext

theorem create (hns : AllCanonical ns) (data : Bytes) (replication blockSize : Value) :
    Remembers (s.create (ofNames ns) data replication).2
      (remember g (.create (ofNames ns) data replication blockSize)
        (s.create (ofNames ns) data replication).1) := by
  have hext := hs.extended_makeDirectories (directoryNames (ofNames ns))
  rw [Local.create]
  rcases hmake : s.tree.makeDirectories s.root (directoryNames (ofNames ns))
    with ⟨cause | _, tree⟩
  all_goals rw [hmake] at hext
  · exact h.obstruct hs hext _ cause
  · dsimp only
    cases htarget : tree.fileTarget s.root (Local.names (ofNames ns)) with
    | error cause => exact h.obstruct hs hext _ cause
    | ok place =>
        have hlocate := locate_of_fileTarget htarget
        obtain rfl := eq_of_locate (leadsTo_ofNames hns) hlocate
        have hfree := (Tree.of_fileTarget_eq_ok htarget).2
        have htree := IsSound.isTree_insert_of_fileTarget hext.isTree htarget (.file data)
        have hput :=
          (h.of_extended hs hext).of_covers hext.isTree htree (covers_insert_file hfree data)
        have hstored : isStored { s with tree := tree.insert (s.root ++ ns) (.file data) }
          (ofNames ns) := by
          refine (isStored_iff htree hns).mpr ⟨Tree.accepts_of_locate_eq_ok hlocate, ?_, ?_⟩
          · exact (covers_insert_file hfree data _).1 (directory_of_locate hlocate)
          · exact Tree.contains_of_get? ((Tree.get?_insert _ _ _ _).trans (if_pos rfl))
        change Remembers _ (Function.update g (rowOf (ofNames ns)) (some replication))
        rw [rowOf_ofNames hns]
        exact hput.insert hns hstored replication

theorem append (p : Path) (data : Bytes) : Remembers (s.append p data).2 g := by
  rw [Local.append]
  split
  · exact h
  · rename_i htarget
    have hfree := (Tree.of_fileTarget_eq_ok htarget).2
    exact h.of_covers hs.isTree (IsSound.isTree_insert_of_fileTarget hs.isTree htarget _)
      (covers_insert_file hfree _)
  · exact h

theorem delete (ha : AllCanonical a) (hbelow : ¬ HasBelow s.factors a) :
    Remembers (s.delete (ofNames a)).2
      (remember g (.delete (ofNames a)) (s.delete (ofNames a)).1) := by
  have hforget : ∀ reply, remember g (.delete (ofNames a)) (.ok reply) = fun ns =>
      if a <+: ns then none else g ns :=
    fun reply => by rw [remember, rowOf_ofNames ha]
  rw [Local.delete]
  split
  · exact h
  · rename_i place hlocate
    obtain rfl := eq_of_locate (leadsTo_ofNames ha) hlocate
    dsimp only
    split
    · exact h
    · rw [hforget]
      exact h.erase hs.isTree ha hbelow
    · have hclear := h.clear hs.isTree hbelow
      split
      · rename_i place' hentry
        obtain rfl := eq_of_locate (leadsTo_ofNames ha) (of_entryPlace? hentry).1
        rw [hforget]
        exact hclear.erase (hs.isTree.clear _) ha hbelow
      · rw [refuse]
        exact hclear

theorem rename {b : List Name} (ha : AllCanonical a) (hb : AllCanonical b)
    (hbelow : (s.rename (ofNames a) (ofNames b)).1 = .ok .yes → ¬ HasBelow s.factors a) :
    Remembers (s.rename (ofNames a) (ofNames b)).2
      (remember g (.rename (ofNames a) (ofNames b)) (s.rename (ofNames a) (ofNames b)).1) := by
  rcases hs.rename_cases (ofNames a) (ofNames b)
    with ⟨hnothing, tree, hext, heq⟩ | ⟨tree, start, goal, hm⟩
  · rw [heq]
    have hkept := h.of_extended hs hext
    rcases hnothing with ⟨fault, hfault⟩ | hno
    · rwa [hfault, remember_error]
    · rwa [hno]
  · obtain ⟨rfl, rfl, hnil, haccepts, hnot⟩ := hm.places ha hb
    have hgone := hbelow (by rw [hm.answer])
    have hkept := h.of_extended hs hm.extended
    rw [hm.answer]
    change Remembers _ fun ns => if rowOf (ofNames b) <+: ns then
      g (rowOf (ofNames a) ++ ns.drop (rowOf (ofNames b)).length)
        else if rowOf (ofNames a) <+: ns then none else g ns
    rw [rowOf_ofNames ha, rowOf_ofNames hb]
    refine hkept.move hm.extended.isTree hm.isTree_move ha hb ?_ hnot hgone ?_ haccepts hnil
    · exact isStored_of_covers hs.isTree hm.extended.isTree (covers_of_extended hm.extended)
        ha hm.stored
    · intro c hbc hkey
      exact hm.free (isStored_of_isPrefix hs.isTree hbc (List.prefix_append b c)
        (h.stored _ hbc hkey))

omit hs in
theorem setReplication (hns : AllCanonical ns) (factor : Value) :
    Remembers (s.setReplication (ofNames ns) factor).2
      (remember g (.setReplication (ofNames ns) factor)
        (s.setReplication (ofNames ns) factor).1) := by
  rw [Local.setReplication]
  split
  · rename_i hstored
    change Remembers _ (Function.update g (rowOf (ofNames ns)) (some factor))
    rw [rowOf_ofNames hns]
    exact h.insert hns hstored factor
  · exact h

theorem mkdirs (p : Path) : Remembers (s.mkdirs p).2 g := by
  have hext := hs.extended_makeDirectories ((Local.names p).filter (· ≠ [])).reverse
  rw [Local.mkdirs]
  rcases hmake : s.tree.makeDirectories s.root ((Local.names p).filter (· ≠ [])).reverse
    with ⟨cause | _, tree⟩
  all_goals rw [hmake] at hext
  · simp only [obstruct_snd]
    exact h.of_extended hs hext
  · exact h.of_extended hs hext

/-- What is remembered after a call is what has been given, unless the call removes or renames a
directory with a remembered path below it. -/
theorem of_answer (hpaths : request.All Path.IsCanonical) (hup : ¬ s.Uproots request) :
    Remembers (s.answer request).2 (remember g request (s.answer request).1) := by
  cases request with
  | create path data replication blockSize =>
      obtain ⟨ns, hns, rfl⟩ := hpaths
      exact h.create hs hns data replication blockSize
  | append path data => exact h.append hs path data
  | read path length => exact (read_snd s path length).symm ▸ h
  | delete path =>
      obtain ⟨a, ha, rfl⟩ := hpaths
      exact h.delete hs ha fun hbelow => hup ⟨a, hbelow, .inl rfl⟩
  | rename source target =>
      obtain ⟨⟨a, ha, rfl⟩, b, hb, rfl⟩ := hpaths
      exact h.rename hs ha hb fun hyes hbelow => hup ⟨a, hbelow, .inr ⟨_, rfl, hyes⟩⟩
  | setReplication path factor =>
      obtain ⟨ns, hns, rfl⟩ := hpaths
      exact h.setReplication hns factor
  | getReplication path => exact (getReplication_snd s path).symm ▸ h
  | listdir path => exact (listdir_snd s path).symm ▸ h
  | mkdirs path => exact h.mkdirs hs path
  | isStored path => exact h

end Remembers

section Lost

theorem append_ne_self (hc : c ≠ []) (hac : AllCanonical (a ++ c)) :
    ofNames (a ++ c) ≠ ofNames a := by
  rw [Ne, ofNames_inj hac.proper (hac.of_isPrefix (List.prefix_append a c)).proper]
  simpa using hc

theorem Remembers.lost_of_delete (h : s.Remembers g) (hs : s.IsSound)
    (hbelow : HasBelow s.factors a) :
    ∃ p ∈ (s.delete (ofNames a)).2.factors.keys, ¬ (s.delete (ofNames a)).2.isStored p := by
  obtain ⟨c, hc, hac, hkey⟩ := hbelow
  have ha := hac.of_isPrefix (List.prefix_append a c)
  have hstored := h.stored _ hac hkey
  obtain ⟨hlocate, -⟩ :=
    of_isStored (leadsTo_ofNames ha)
      (isStored_of_isPrefix hs.isTree hac (List.prefix_append a c) hstored)
  have hdir : s.tree.get? (s.root ++ a) = some .directory := by
    refine hs.isTree.directory_below (of_isStored (leadsTo_ofNames hac) hstored).2
      (List.prefix_append a c) ?_
    simpa using hc.symm
  have hpre : s.root ++ a <+: s.root ++ (a ++ c) :=
    (List.prefix_append_right_inj s.root).mpr (List.prefix_append a c)
  refine ⟨ofNames (a ++ c), ?_⟩
  rw [Local.delete, hlocate]
  dsimp only
  rw [hdir]
  dsimp only
  split
  · rename_i place hentry
    obtain rfl := eq_of_locate (leadsTo_ofNames ha) (of_entryPlace? hentry).1
    refine ⟨mem_keys_erase_iff.mpr ⟨append_ne_self hc hac, hkey⟩, fun hstill => ?_⟩
    have hcontains := (of_isStored (leadsTo_ofNames hac) hstill).2
    rw [Tree.contains_iff, Tree.get?_erase, if_pos hpre] at hcontains
    obtain ⟨node, hnode⟩ := hcontains
    cases hnode
  · refine ⟨hkey, fun hstill => ?_⟩
    have hcontains := (of_isStored (leadsTo_ofNames hac) hstill).2
    rw [refuse, Tree.contains_iff, Tree.get?_clear, if_pos ⟨hpre, by simpa using hc⟩] at hcontains
    obtain ⟨node, hnode⟩ := hcontains
    cases hnode

theorem lost_of_rename (hs : s.IsSound) {b : List Name} (hb : AllCanonical b)
    (hbelow : HasBelow s.factors a) (hyes : (s.rename (ofNames a) (ofNames b)).1 = .ok .yes) :
    ∃ p ∈ (s.rename (ofNames a) (ofNames b)).2.factors.keys,
      ¬ (s.rename (ofNames a) (ofNames b)).2.isStored p := by
  obtain ⟨c, hc, hac, hkey⟩ := hbelow
  have ha := hac.of_isPrefix (List.prefix_append a c)
  rcases hs.rename_cases (ofNames a) (ofNames b) with ⟨hnothing, -⟩ | ⟨tree, start, goal, hm⟩
  · exact absurd (hyes ▸ hnothing) not_comesToNothing_yes
  obtain ⟨rfl, rfl, -, -, hnot⟩ := hm.places ha hb
  rw [hm.answer]
  refine ⟨ofNames (a ++ c), (mem_keys_carryFactor_iff _).mpr (.inr ⟨append_ne_self hc hac, hkey⟩),
    fun hstill => ?_⟩
  have hcontains := (of_isStored (leadsTo_ofNames hac) hstill).2
  have hpre : s.root ++ a <+: s.root ++ (a ++ c) :=
    (List.prefix_append_right_inj s.root).mpr (List.prefix_append a c)
  have hout : ¬ b <+: a ++ c := by
    intro hpre'
    rcases List.prefix_or_prefix_of_prefix (List.prefix_append a c) hpre' with hab | hba
    · exact hnot hab
    · -- The target would be stored above the source.
      exact hm.free (isStored_of_isPrefix hs.isTree ha hba hm.stored)
  change (tree.move (s.root ++ a) (s.root ++ b)).contains (s.root ++ (a ++ c)) at hcontains
  rw [Tree.contains_iff, get?_move_of_not_isPrefix hm.extended.isTree s.root hout,
    Tree.get?_erase, if_pos hpre] at hcontains
  obtain ⟨node, hnode⟩ := hcontains
  cases hnode

theorem Remembers.lost_of_uproots (h : s.Remembers g) (hs : s.IsSound)
    (hpaths : request.All Path.IsCanonical) (hup : s.Uproots request) :
    ∃ p ∈ (s.answer request).2.factors.keys,
    ¬ (s.answer request).2.isStored p := by
  obtain ⟨a, hbelow, rfl | ⟨target, rfl, hyes⟩⟩ := hup
  · exact h.lost_of_delete hs hbelow
  · obtain ⟨-, b, hb, rfl⟩ := hpaths
    exact lost_of_rename hs hb hbelow hyes

end Lost

end Calls

section Histories

variable {requests before : List Request} {answers : List (Except StoreFault Reply)} {s₀ : Local}
  {root : Place}

theorem remembers_of_ofRoot (h : ofRoot tree root = .ok s) : s.Remembers fun _ => none := by
  rw [ofRoot] at h
  split at h
  · obtain rfl := Except.ok.inj h
    exact ⟨fun _ hp => absurd hp List.not_mem_nil, fun _ _ hp => absurd hp List.not_mem_nil,
      fun _ _ => rfl⟩
  · cases h

theorem given_concat {calls : List (Request × Except StoreFault Reply)} :
    given (calls ++ [(request, answer)]) = remember (given calls) request answer := by
  rw [given, List.foldl_append]
  rfl

theorem given_zip_concat (h : Storage.serve before s₀ = some (answers, s)) :
    given ((before ++ [request]).zip (answers ++ [answer])) =
      remember (given (before.zip answers)) request answer := by
  rw [List.zip_append (Storage.length_of_serve h).symm]
  exact given_concat

theorem remembers_of_serve (htree : tree.IsTree) (hroot : AllProper root)
    (hmount : ofRoot tree root = .ok s₀)
    (hpaths : ∀ request ∈ requests, request.All Path.IsCanonical)
    (hkept : ∀ before request answers s, before ++ [request] <+: requests →
      Storage.serve before s₀ = some (answers, s) → s.Remembers (given (before.zip answers)) →
      ¬ s.Uproots request)
    (hbefore : before <+: requests) (hserve : Storage.serve before s₀ = some (answers, s)) :
    s.Remembers (given (before.zip answers)) := by
  induction before using List.reverseRecOn generalizing answers s with
  | nil =>
      obtain ⟨rfl, rfl⟩ := Prod.mk.inj (Option.some.inj hserve)
      exact remembers_of_ofRoot hmount
  | append_singleton before request ih =>
      obtain ⟨answers', mid, answer, hserve', hanswer, rfl⟩ :=
        Storage.exists_of_serve_concat hserve
      have hmid := ih ((List.prefix_append _ _).trans hbefore) hserve'
      obtain ⟨rfl, rfl⟩ := Prod.mk.inj (Option.some.inj hanswer)
      rw [given_zip_concat hserve']
      exact hmid.of_answer (isSound_of_serve htree hroot hmount hserve')
        (hpaths request (hbefore.subset (by simp)))
          (hkept before request answers' mid hbefore hserve' hmid)

/-- After every number of calls with normalised paths, whose names the host tells as they are
given, every remembered path is stored and every file has the factor that was last given for it,
exactly if no call removes or renames a directory with a remembered path below it. -/
theorem followsTree_iff (htree : tree.IsTree) (hroot : AllProper root)
    (hmount : ofRoot tree root = .ok s₀)
    (hpaths : ∀ request ∈ requests, request.All Path.IsCanonical) :
    (∀ before answers s, before <+: requests → Storage.serve before s₀ = some (answers, s) →
        s.FollowsTree (given (before.zip answers))) ↔
      ∀ before request answers s, before ++ [request] <+: requests →
        Storage.serve before s₀ = some (answers, s) →
        ¬ s.Uproots request := by
  constructor
  · intro hfollows
    have hkept : ∀ before request answers s, before ++ [request] <+: requests →
        Storage.serve before s₀ = some (answers, s) → s.Remembers (given (before.zip answers)) →
          ¬ s.Uproots request := by
      intro before request answers s hbefore hserve h hup
      obtain ⟨p, hkey, hlost⟩ := h.lost_of_uproots (isSound_of_serve htree hroot hmount hserve)
        (hpaths request (hbefore.subset (by simp))) hup
      exact hlost ((hfollows _ _ _ hbefore (Storage.serve_concat hserve rfl)).stored p hkey)
    intro before request answers s hbefore hserve
    exact hkept before request answers s hbefore hserve
      (remembers_of_serve htree hroot hmount hpaths hkept
        ((List.prefix_append _ _).trans hbefore) hserve)
  · intro hkept before answers s hbefore hserve
    exact (remembers_of_serve htree hroot hmount hpaths
      (fun before request answers s hbefore hserve _ =>
        hkept before request answers s hbefore hserve)
      hbefore hserve).followsTree

/-- A file goes out of its directory, which is removed then. -/
def tended : List Request :=
  [.create (ofNames [['d'], ['f']]) [1] (.int 3) (.int 64),
    .rename (ofNames [['d'], ['f']]) (ofNames [['g']]), .delete (ofNames [['d']])]

theorem followsTree_iff_tended : ∃ s₀ answers s, ofRoot Tree.bare [['r']] = .ok s₀ ∧
    Storage.serve tended s₀ = some (answers, s) ∧ s.FollowsTree (given (tended.zip answers)) ∧
    s.getReplication (ofNames [['g']]) = (.ok (.value (.int 3)), s) := by
  obtain ⟨s₀, answers, s, hmount, hserve, hfind, hgiven, hfirst, hsecond⟩ :
      ∃ s₀ answers s, ofRoot Tree.bare [['r']] = .ok s₀ ∧
        Storage.serve tended s₀ = some (answers, s) ∧
        s.find? (ofNames [['g']]) = some (.file [1]) ∧
        given (tended.zip answers) [['g']] = some (.int 3) ∧
        (∀ result, Storage.serve (tended.take 1) s₀ = some result →
          result.2.factors.keys = [ofNames [['d'], ['f']]]) ∧
        ∀ result, Storage.serve (tended.take 2) s₀ = some result →
          result.2.factors.keys = [ofNames [['g']]] :=
    ⟨_, _, _, rfl, rfl, rfl, rfl, fun _ h => Option.some.inj h ▸ rfl, fun _ h =>
      Option.some.inj h ▸ rfl⟩
  have hpaths : ∀ request ∈ tended, request.All Path.IsCanonical := by
    intro request hrequest
    simp only [tended, List.mem_cons, List.not_mem_nil, or_false] at hrequest
    rcases hrequest with rfl | rfl | rfl
    · exact isCanonical_ofNames (by decide)
    · exact ⟨isCanonical_ofNames (by decide), isCanonical_ofNames (by decide)⟩
    · exact isCanonical_ofNames (by decide)
  have hstages : ∀ before request answers s, before ++ [request] <+: tended →
      Storage.serve before s₀ = some (answers, s) → ¬ s.Uproots request := by
    rintro before request answers s hbefore hserve ⟨a, ⟨c, hc, hac, hkey⟩, hcall⟩
    have ha := hac.of_isPrefix (List.prefix_append a c)
    rcases before with _ | ⟨first, _ | ⟨second, _ | ⟨third, rest⟩⟩⟩
    · obtain ⟨rfl, -⟩ := List.cons_prefix_cons.mp hbefore
      rcases hcall with heq | ⟨target, heq, -⟩ <;> cases heq
    · obtain ⟨rfl, hrest⟩ := List.cons_prefix_cons.mp hbefore
      obtain ⟨rfl, -⟩ := List.cons_prefix_cons.mp hrest
      rcases hcall with heq | ⟨target, heq, -⟩
      · cases heq
      · rw [hfirst _ hserve, List.mem_singleton, (Request.rename.inj heq).1] at hkey
        exact append_ne_self hc hac hkey
    · obtain ⟨rfl, hrest⟩ := List.cons_prefix_cons.mp hbefore
      obtain ⟨rfl, hlast⟩ := List.cons_prefix_cons.mp hrest
      obtain ⟨rfl, -⟩ := List.cons_prefix_cons.mp hlast
      rcases hcall with heq | ⟨target, heq, -⟩
      · obtain rfl := (ofNames_inj ha.proper (by decide)).mp (Request.delete.inj heq).symm
        rw [hsecond _ hserve, List.mem_singleton, ofNames_inj hac.proper (by decide)] at hkey
        simp at hkey
      · cases heq
    · have hlength := hbefore.length_le
      simp only [tended, List.length_append, List.length_cons, List.length_nil] at hlength
      omega
  have hfollows :=
    (followsTree_iff Tree.isTree_bare (by decide) hmount hpaths).mpr hstages tended answers s
      List.prefix_rfl hserve
  exact ⟨s₀, answers, s, hmount, hserve, hfollows, hfollows.told _ _ _ (by decide) hfind hgiven⟩

/-- A directory is renamed with a file in it. -/
def uprooted : List Request :=
  [.create (ofNames [['d'], ['f']]) [1] (.int 3) (.int 64),
    .rename (ofNames [['d']]) (ofNames [['e']])]

/-- The factor stays under the old path, where nothing is stored, and the file is told to have
another one. -/
theorem not_followsTree_uprooted : ∃ s₀ answers s, ofRoot Tree.bare [['r']] = .ok s₀ ∧
    Storage.serve uprooted s₀ = some (answers, s) ∧
    ofNames [['d'], ['f']] ∈ s.factors.keys ∧ ¬ s.isStored (ofNames [['d'], ['f']]) ∧
    s.find? (ofNames [['e'], ['f']]) = some (.file [1]) ∧
    given (uprooted.zip answers) [['e'], ['f']] = some (.int 3) ∧
    s.getReplication (ofNames [['e'], ['f']]) = (.ok (.value (.int 1)), s) :=
  ⟨_, _, _, rfl, rfl, List.mem_singleton_self _, Bool.false_ne_true, rfl, rfl, rfl⟩

end Histories

end StorageLoad.Local
