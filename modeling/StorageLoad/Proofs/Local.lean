import StorageLoad.Proofs.Host
import StorageLoad.Proofs.Host.Names
import StorageLoad.Store.Local

/-!
The service on a host's file tree, at normalised paths: where on the host a path leads
(`LeadsTo`), what is found there, and what single calls come to.
-/

namespace StorageLoad.Local

open StorageLoad.Path
open StorageLoad.Host

section Names

variable {ns ms : List Name} {name : Name} {p : Path}

/-- A path of proper names leads to these on the host, which may be others than those in its
text. -/
structure LeadsTo (p : Path) (ns : List Name) : Prop where
  proper : AllProper ns
  names_eq : names p = if ns = [] then [[]] else ns

theorem names_slash : names ['/'] = [[]] := by
  decide

theorem leadsTo_map_canonical (h : AllProper ns) : LeadsTo (ofNames ns) (ns.map canonical) := by
  refine ⟨allProper_map_canonical h, ?_⟩
  rcases eq_or_ne ns [] with rfl | hne
  · exact names_slash
  have hsplit := splitAll_stem h
  obtain ⟨first, rest, rfl⟩ := List.exists_cons_of_ne_nil hne
  have hfirst := h first List.mem_cons_self
  obtain ⟨c, cs, rfl⟩ := List.exists_cons_of_ne_nil hfirst.ne_nil
  have hc : c ≠ '/' := by
    rintro rfl
    exact hfirst.slash_not_mem List.mem_cons_self
  have hstem : stem ((c :: cs) :: rest) = '/' :: c :: (cs ++ stem rest) := rfl
  rw [hstem, Text.splitAll, if_pos rfl] at hsplit
  rw [ofNames_of_ne_nil hne, hstem, names, List.dropWhile_cons_of_pos (by simp),
    List.dropWhile_cons_of_neg (by simpa using hc), (List.cons.inj hsplit).2, if_neg (by simp)]

theorem leadsTo_ofNames (h : AllCanonical ns) : LeadsTo (ofNames ns) ns := by
  have hleads := leadsTo_map_canonical h.proper
  rwa [h.map_canonical] at hleads

namespace LeadsTo

theorem names_eq_of_ne_nil (h : LeadsTo p ns) (hne : ns ≠ []) : names p = ns := by
  rw [h.names_eq, if_neg hne]

theorem filter_names (h : LeadsTo p ns) : (names p).filter (· ≠ []) = ns := by
  rw [h.names_eq]
  split
  · rename_i hnil
    rw [hnil]
    rfl
  · exact Tree.filter_ne_nil_eq_self h.proper

/-- A path leads to one row of names only. -/
theorem unique (h : LeadsTo p ns) (h' : LeadsTo p ms) : ns = ms := by
  rw [← h.filter_names, ← h'.filter_names]

theorem directoryNames (h : LeadsTo p (ns ++ [name])) : directoryNames p = ns.reverse := by
  rw [Local.directoryNames, h.names_eq_of_ne_nil (by simp), List.dropLast_concat,
    Tree.filter_ne_nil_eq_self (allProper_append_singleton.mp h.proper).1]

end LeadsTo

end Names

theorem firstBytes_of_whole {length : Value} {n : Int} (hlength : length.whole? = some n)
    (data : Bytes) : firstBytes data length =
      if n < -countLimit ∨ countLimit - overhead ≤ n then .error .lengthTooLarge
      else if n < -1 then .error .negativeLength
      else if n = -1 then .ok data
      else if roomLimit ≤ n then .error .noMemory
      else .ok (data.take n.toNat) := by
  cases length with
  | int k => exact Option.some.inj hlength ▸ rfl
  | bool b => exact Option.some.inj hlength ▸ rfl
  | _ => cases hlength

theorem firstBytes_of_room {length : Value} {n : Int} (hlength : length.whole? = some n)
    (hn : 0 ≤ n) (hroom : n < roomLimit) (data : Bytes) :
    firstBytes data length = .ok (data.take n.toNat) := by
  have hcount : ¬ (n < -countLimit ∨ countLimit - overhead ≤ n) := by
    simp only [roomLimit, countLimit, overhead] at hroom ⊢
    omega
  rw [firstBytes_of_whole hlength, if_neg hcount, if_neg (by omega), if_neg (by omega),
    if_neg (by omega)]

section Lookup

variable {t : Tree} {base place : Place} {p q : Path} {a ns : List Name} {name : Name}

theorem walk_slash (h : t.get? base = some .directory) : t.walk base [[]] = .ok base := by
  rw [Tree.walk_cons_eq_ok_iff]
  exact ⟨h, by decide, rfl⟩

theorem eq_of_locate (hp : LeadsTo p ns) (h : t.locate base (names p) = .ok place) :
    place = base ++ ns := by
  obtain ⟨-, hwalk⟩ := Tree.locate_eq_ok_iff.mp h
  rcases eq_or_ne ns [] with rfl | hne
  · rw [hp.names_eq, if_pos rfl] at hwalk
    obtain ⟨hbase, -, -⟩ := Tree.walk_cons_eq_ok_iff.mp hwalk
    rw [walk_slash hbase] at hwalk
    rw [List.append_nil]
    exact (Except.ok.inj hwalk).symm
  · rw [hp.names_eq_of_ne_nil hne] at hwalk
    exact Tree.eq_of_walk_eq_ok hp.proper hwalk

theorem names_ne_nil (p : Path) : names p ≠ [] :=
  List.map_eq_nil_iff.not.mpr (Text.splitAll_ne_nil _ _)

theorem directory_of_locate (h : t.locate base (names p) = .ok place) :
    t.get? base = some .directory := by
  obtain ⟨-, hwalk⟩ := Tree.locate_eq_ok_iff.mp h
  obtain ⟨first, rest, hnames⟩ := List.exists_cons_of_ne_nil (names_ne_nil p)
  rw [hnames] at hwalk
  exact (Tree.walk_cons_eq_ok_iff.mp hwalk).1

theorem locate_of_contains (h : t.IsTree) (hbase : t.get? base = some .directory)
    (hp : LeadsTo p ns)
    (haccepts : Accepts base (names p)) (hcontains : t.contains (base ++ ns)) :
    t.locate base (names p) = .ok (base ++ ns) := by
  rcases eq_or_ne ns [] with rfl | hne
  · rw [hp.names_eq, if_pos rfl] at haccepts ⊢
    rw [Tree.locate_eq haccepts, walk_slash hbase, List.append_nil]
  · rw [hp.names_eq_of_ne_nil hne] at haccepts ⊢
    exact h.locate_of_contains hp.proper haccepts hcontains

theorem entryPlace?_of_locate (hp : LeadsTo p ns)
    (hlocate : t.locate base (names p) = .ok (base ++ ns)) (hcontains : t.contains (base ++ ns))
    (hne : base ++ ns ≠ []) :
    t.entryPlace? base (names p) = some (base ++ ns) := by
  have hlast : (ns.getLast?).any isDots = false := by
    cases ns using List.reverseRecOn with
    | nil => rfl
    | append_singleton ns name =>
        rw [List.getLast?_concat, Option.any_some,
          (allProper_append_singleton.mp hp.proper).2.not_dots]
  rw [Tree.entryPlace?, hp.filter_names, hlast, if_neg Bool.false_ne_true, hlocate]
  exact Option.filter_eq_some_iff.mpr ⟨rfl, by simp [hne, hcontains]⟩

theorem renameTarget_eq_ok {s : Local} (h : s.tree.IsTree) (hp : LeadsTo p (ns ++ [name]))
    (haccepts : Accepts s.root (ns ++ [name]))
    (hparent : s.tree.get? (s.root ++ ns) = some .directory) :
    s.renameTarget p = .ok (s.root ++ (ns ++ [name])) := by
  have hname := (allProper_append_singleton.mp hp.proper).2
  simp only [renameTarget, hp.filter_names, List.getLast?_concat, hname.not_dots,
    Bool.false_eq_true, if_false, h.locate_eq_ok hp.proper haccepts hparent]

theorem append_ne_nil_of_not_isPrefix (base : Place) (h : ¬ a <+: ns) : base ++ a ≠ [] := by
  intro hnil
  rw [(List.append_eq_nil_iff.mp hnil).2] at h
  exact h List.nil_prefix

theorem canMove_of_none {s : Local} (hnone : s.tree.get? (s.root ++ ns) = none)
    (hbelow : ¬ a <+: ns) :
    s.canMove (s.root ++ a) (s.root ++ ns) false := by
  have hne := append_ne_nil_of_not_isPrefix s.root hbelow
  have hpre : (s.root ++ a).isPrefixOf (s.root ++ ns) = false := by
    rw [← Bool.not_eq_true, List.isPrefixOf_iff_prefix, List.prefix_append_right_inj]
    exact hbelow
  simp [canMove, hne, hpre, Tree.isDirectory, Table.contains, hnone]

end Lookup

section Nothing

variable {s : Local} {p : Path} {ns : List Name}

theorem get?_of_find? (hp : LeadsTo p ns) {node : Node}
    (hfind : s.find? p = some node) : s.tree.get? (s.root ++ ns) = some node := by
  rw [Local.find?, Tree.find?] at hfind
  cases hlocate : s.tree.locate s.root (names p) with
  | error cause =>
      rw [hlocate] at hfind
      cases hfind
  | ok place =>
      rw [hlocate] at hfind
      rw [← eq_of_locate hp hlocate]
      exact hfind

theorem find?_eq_none (hp : LeadsTo p ns)
    (hnone : s.tree.get? (s.root ++ ns) = none) : s.find? p = none := by
  cases hfind : s.find? p with
  | none => rfl
  | some node =>
      rw [get?_of_find? hp hfind] at hnone
      cases hnone

theorem delete_of_none (hp : LeadsTo p ns)
    (hnone : s.tree.get? (s.root ++ ns) = none) :
    s.delete p = (.error (.notFound p), s) := by
  rw [Local.delete]
  cases hlocate : s.tree.locate s.root (names p) with
  | error cause => rfl
  | ok place =>
      rw [eq_of_locate hp hlocate]
      simp only [hnone]

theorem listdir_of_none (hp : LeadsTo p ns)
    (hnone : s.tree.get? (s.root ++ ns) = none) :
    s.listdir p = (.error (.notFound p), s) := by
  rw [Local.listdir]
  cases hlocate : s.tree.locate s.root (names p) with
  | error cause => rfl
  | ok place =>
      rw [eq_of_locate hp hlocate]
      simp [Tree.isDirectory, hnone]

theorem read_of_none (hp : LeadsTo p ns)
    (hnone : s.tree.get? (s.root ++ ns) = none) (length : Value) :
    s.read p length = (.error (.notFound p), s) := by
  rw [Local.read, find?_eq_none hp hnone]

theorem append_of_none (hp : LeadsTo p ns)
    (hnone : s.tree.get? (s.root ++ ns) = none) (data : Bytes) :
    s.append p data = (.error (.notFound p), s) := by
  rw [Local.append, find?_eq_none hp hnone]

end Nothing

/-- The service stands on a tree, in a directory that the host can name with a slash behind it. -/
structure IsMounted (s : Local) : Prop where
  isTree : s.tree.IsTree
  root : s.tree.get? s.root = some .directory
  accepts : Accepts s.root [[]]

namespace IsMounted

variable {s : Local} {p q : Path} {ns : List Name} {name : Name} {place : Place}

/-- At an accepted path the service finds what is under its names. -/
theorem find?_eq (h : s.IsMounted) (hp : LeadsTo p ns)
    (haccepts : Accepts s.root (names p)) :
    s.find? p = s.tree.get? (s.root ++ ns) := by
  cases hnode : s.tree.get? (s.root ++ ns) with
  | some node =>
      rw [Local.find?, Tree.find?,
        locate_of_contains h.isTree h.root hp haccepts (Tree.contains_of_get? hnode)]
      exact hnode
  | none =>
      cases hfind : s.find? p with
      | none => rfl
      | some node =>
          rw [get?_of_find? hp hfind] at hnode
          cases hnode

section Calls

variable {data : Bytes}

theorem delete_of_file (h : s.IsMounted) (hp : LeadsTo p ns)
    (haccepts : Accepts s.root (names p))
    (hfile : s.tree.get? (s.root ++ ns) = some (.file data)) :
    s.delete p = (.ok .yes,
      { s with tree := s.tree.erase (s.root ++ ns), factors := s.factors.erase p }) := by
  rw [Local.delete, locate_of_contains h.isTree h.root hp haccepts (Tree.contains_of_get? hfile)]
  simp only [hfile]

theorem listdir_of_directory (h : s.IsMounted) (hp : LeadsTo p ns)
    (haccepts : Accepts s.root (names p)) (hdir : s.tree.get? (s.root ++ ns) = some .directory) :
    s.listdir p = (.ok (.value (.list ((s.tree.namesBelow (s.root ++ ns)).map fun name =>
      Value.text (String.ofList name)))), s) := by
  rw [Local.listdir, locate_of_contains h.isTree h.root hp haccepts (Tree.contains_of_get? hdir)]
  simp [Tree.isDirectory, hdir, Node.isDirectory]

theorem read_of_file (h : s.IsMounted) (hp : LeadsTo p ns)
    (haccepts : Accepts s.root (names p)) (hfile : s.tree.get? (s.root ++ ns) = some (.file data))
    (length : Value) :
    s.read p length = ((firstBytes data length).map .bytes, s) := by
  rw [Local.read, h.find?_eq hp haccepts, hfile]

end Calls

section Below

theorem accepts_names_iff (h : s.IsMounted) (hp : LeadsTo p ns) :
    Accepts s.root (names p) ↔ Accepts s.root ns := by
  rcases eq_or_ne ns [] with rfl | hne
  · rw [hp.names_eq, if_pos rfl]
    exact ⟨fun _ => h.accepts.of_isPrefix List.nil_prefix, fun _ => h.accepts⟩
  · rw [hp.names_eq_of_ne_nil hne]

theorem grown (h : s.IsMounted) {t : Tree} (ht : s.tree.Grown s.root ns t) :
    IsMounted { s with tree := t } := by
  refine ⟨ht.isTree, ?_, h.accepts⟩
  have hroot := ht.made [] List.nil_prefix
  rwa [List.append_nil] at hroot

theorem append_of_file (h : s.IsMounted) (hp : LeadsTo p (ns ++ [name]))
    (haccepts : Accepts s.root (ns ++ [name])) {old : Bytes}
    (hfile : s.tree.get? (s.root ++ (ns ++ [name])) = some (.file old)) (data : Bytes) :
    s.append p data = (.ok (.int data.length),
      { s with tree := s.tree.insert (s.root ++ (ns ++ [name])) (.file (old ++ data)) }) := by
  have hnames : names p = ns ++ [name] := hp.names_eq_of_ne_nil (by simp)
  have hparent : s.tree.get? (s.root ++ ns) = some .directory := by
    apply h.isTree.parent (s.root ++ ns) name
    rw [List.append_assoc]
    exact Tree.contains_of_get? hfile
  rw [Local.append, h.find?_eq hp (hnames.symm ▸ haccepts), hfile, hnames,
    h.isTree.fileTarget_eq_ok hp.proper haccepts hparent (by simp [hfile])]

theorem mkdirs_of_open (h : s.IsMounted) (hp : LeadsTo p ns) (haccepts : Accepts s.root ns)
    (hopen : ∀ a, a <+: ns → ∀ data, s.tree.get? (s.root ++ a) ≠ some (.file data)) :
    ∃ t, s.tree.Grown s.root ns t ∧ s.mkdirs p = (.ok .yes, { s with tree := t }) := by
  obtain ⟨t, hmake, ht⟩ := h.isTree.makeDirectories h.root hp.proper haccepts hopen
  refine ⟨t, ht, ?_⟩
  rw [Local.mkdirs, hp.filter_names, hmake]

theorem create_of_open (h : s.IsMounted) (hp : LeadsTo p (ns ++ [name]))
    (haccepts : Accepts s.root (ns ++ [name]))
    (hopen : ∀ a, a <+: ns → ∀ data, s.tree.get? (s.root ++ a) ≠ some (.file data))
    (hfree : s.tree.get? (s.root ++ (ns ++ [name])) ≠ some .directory) (data : Bytes)
    (replication : Value) :
    ∃ t, s.tree.Grown s.root ns t ∧ s.create p data replication =
      (.ok (.int data.length),
        { s with
          tree := t.insert (s.root ++ (ns ++ [name])) (.file data)
          factors := s.factors.insert p replication }) := by
  have hup := (allProper_append_singleton.mp hp.proper).1
  obtain ⟨t, hmake, ht⟩ := h.isTree.makeDirectories h.root hup
    (haccepts.of_isPrefix (List.prefix_append ns [name])) hopen
  refine ⟨t, ht, ?_⟩
  have hfree' : t.get? (s.root ++ (ns ++ [name])) ≠ some .directory := by
    rwa [ht.get?_of_not_isPrefix (not_append_singleton_isPrefix ns name)]
  rw [Local.create, hp.directoryNames, hmake]
  simp only [hp.names_eq_of_ne_nil
    (List.append_ne_nil_of_right_ne_nil ns (List.cons_ne_nil name [])),
    ht.isTree.fileTarget_eq_ok hp.proper haccepts (ht.made ns List.prefix_rfl) hfree']

theorem rename_of_file (h : s.IsMounted) {a : List Name} (hp : LeadsTo p a)
    (hsource : Accepts s.root (names p)) {data : Bytes}
    (hfile : s.tree.get? (s.root ++ a) = some (.file data)) (hq : LeadsTo q (ns ++ [name]))
    (htarget : Accepts s.root (ns ++ [name]))
    (hnone : s.tree.get? (s.root ++ (ns ++ [name])) = none) (hbelow : ¬ a <+: ns ++ [name])
    (hopen : ∀ a, a <+: ns → ∀ data, s.tree.get? (s.root ++ a) ≠ some (.file data)) :
    ∃ t, s.tree.Grown s.root ns t ∧ s.rename p q = (.ok .yes,
      { s with
        tree := (t.erase (s.root ++ a)).insert (s.root ++ (ns ++ [name])) (.file data)
        factors := carryFactor s.factors p q }) := by
  obtain ⟨hup, hname⟩ := allProper_append_singleton.mp hq.proper
  have hnil : ns ++ [name] ≠ [] :=
    List.append_ne_nil_of_right_ne_nil ns (List.cons_ne_nil name [])
  obtain ⟨t, hmake, ht⟩ := h.isTree.makeDirectories h.root hup
    (htarget.of_isPrefix (List.prefix_append ns [name])) hopen
  have hmounted := h.grown ht
  have hsource' : t.get? (s.root ++ a) = some (.file data) := by
    rwa [ht.get?_of_not_isPrefix fun hpre => hbelow (hpre.trans (List.prefix_append ns [name]))]
  have htarget' : t.get? (s.root ++ (ns ++ [name])) = none := by
    rwa [ht.get?_of_not_isPrefix (not_append_singleton_isPrefix ns name)]
  refine ⟨t, ht, ?_⟩
  have hstored : s.isStored p = true := by
    rw [isStored, h.find?_eq hp hsource, hfile]
    rfl
  have hfree : s.isStored q = false := by
    rw [isStored, find?_eq_none hq hnone]
    rfl
  have hcontains := Tree.contains_of_get? hsource'
  have hentry := entryPlace?_of_locate hp
    (locate_of_contains hmounted.isTree hmounted.root hp hsource hcontains) hcontains
      (append_ne_nil_of_not_isPrefix s.root hbelow)
  have hgoal := renameTarget_eq_ok hmounted.isTree hq htarget (ht.made ns List.prefix_rfl)
  have hslash : decide ((names q).getLast? = some []) = false := by
    rw [hq.names_eq_of_ne_nil hnil, List.getLast?_concat]
    simp [hname.ne_nil]
  rw [Local.rename, hstored, hfree, hq.directoryNames, hmake]
  simp only [Bool.not_true, Bool.false_eq_true, if_false, hentry, hgoal, hslash]
  rw [if_pos (canMove_of_none htarget' hbelow), ht.isTree.move_of_file hsource']

end Below

end IsMounted

section Mount

end Mount

end StorageLoad.Local
