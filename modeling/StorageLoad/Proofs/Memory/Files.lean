import StorageLoad.Proofs.Memory.Tree

/-!
The service in memory, entry by entry: what is stored at every path after a single file has been
removed or moved, and which names lie directly below a directory.
-/

namespace StorageLoad.Memory

open StorageLoad.Path

variable {m m' grown : Memory} {a b names : List Name} {name : Name} {e : Entry}

section Change

theorem Pruned.get?_of_file (hm' : m.Pruned a m') (h : m.IsTree) (ha : AllProper a)
    (he : m.get? (ofNames a) = some e) (hfile : e.isDirectory = false) (hb : AllProper b) :
    m'.get? (ofNames b) = if b = a then none else m.get? (ofNames b) := by
  rcases eq_or_ne b a with rfl | heq
  · rw [if_pos rfl, hm'.gone b hb List.prefix_rfl]
  · rw [if_neg heq]
    by_cases hab : a <+: b
    · rw [hm'.gone b hb hab, h.get?_eq_none_of_file he hfile hb hab (Ne.symm heq)]
    · refine hm'.other _ ?_
      intro c hc hac hsame
      rw [ofNames_inj hb hc] at hsame
      exact hab (hsame ▸ hac)

theorem Moved.get?_of_file (hm' : m.Moved grown a (names ++ [name]) m') (h : m.IsTree)
    (hgrown : m.Grown names grown) (ha : AllProper a) (hnames : AllProper (names ++ [name]))
    (he : m.get? (ofNames a) = some e) (hfile : e.isDirectory = false)
    (hfree : m.get? (ofNames (names ++ [name])) = none) (hbelow : ¬ a <+: names ++ [name])
    (hb : AllProper b) :
    m'.get? (ofNames b) =
      if b = names ++ [name] then some e else if b = a then none else grown.get? (ofNames b) := by
  have hup := (allProper_append_singleton.mp hnames).1
  by_cases htarget : names ++ [name] <+: b
  · obtain ⟨c, rfl⟩ := htarget
    have hac : AllProper (a ++ c) := allProper_append_of_append ha hb
    rw [hm'.onto c hb]
    cases c with
    | nil => rw [if_pos (List.append_nil _), List.append_nil, he]
    | cons n c =>
        have hnot : ¬ names ++ [name] ++ n :: c <+: names := fun hpre =>
          not_append_singleton_isPrefix names name ((List.prefix_append _ _).trans hpre)
        have hnone : m.get? (ofNames (a ++ n :: c)) = none :=
          h.get?_eq_none_of_file he hfile hac (List.prefix_append a _) (by simp)
        have hapart : names ++ [name] ++ n :: c ≠ a := by
          rintro rfl
          rw [h.get?_eq_none_of_none hfree ha (List.prefix_append _ _)] at he
          cases he
        rw [hnone, if_neg (by simp), if_neg hapart, hgrown.get?_of_not_isPrefix hup hb hnot,
          h.get?_eq_none_of_none hfree hb (List.prefix_append _ _)]
  · rw [if_neg fun heq : b = names ++ [name] => htarget (heq ▸ List.prefix_rfl)]
    by_cases hab : a <+: b
    · obtain ⟨c, rfl⟩ := hab
      rw [hm'.off c hb]
      cases c with
      | nil => rw [if_pos (List.append_nil _)]
      | cons n c =>
          have hnot : ¬ a ++ n :: c <+: names := fun hpre =>
            hbelow (((List.prefix_append _ _).trans hpre).trans (List.prefix_append _ _))
          rw [if_neg (by simp), hgrown.get?_of_not_isPrefix hup hb hnot,
            h.get?_eq_none_of_file he hfile hb (List.prefix_append _ _) (by simp)]
    · rw [if_neg fun heq : b = a => hab (heq ▸ List.prefix_rfl)]
      refine hm'.other _ ?_ ?_
      · intro c hc heq
        exact hab ((ofNames_inj hb hc).mp heq ▸ List.prefix_append a c)
      · intro c hc heq
        exact htarget ((ofNames_inj hb hc).mp heq ▸ List.prefix_append _ c)

end Change

section Calls

theorem isOpen_fresh (lag : Int) (names : List Name) : (fresh lag).IsOpen names := by
  intro a _ e he
  rw [get?_fresh] at he
  split at he
  · rw [← Option.some.inj he]
    rfl
  · cases he

theorem isFree_fresh (lag : Int) {p : Path} (hp : p ≠ ['/']) : (fresh lag).IsFree p := by
  intro e he
  rw [get?_fresh, if_neg hp] at he
  cases he

theorem file_eq_error_of_none {p : Path} (h : m.get? p = none) :
    m.file p = .error (.notFound p) := by
  rw [file, h]

theorem read_of_file {p : Path} (h : m.file p = .ok e) {length : Value} {n : Int}
    (hlength : length.whole? = some n) (hn : 0 ≤ n) :
    m.read p length = (.ok (.bytes (e.data.take n.toNat)), m) := by
  have hbytes : bytesBefore n e.data = e.data.take n.toNat := by
    rw [bytesBefore, if_neg (Int.not_lt.mpr hn)]
  rw [read, h]
  cases length with
  | int k =>
      obtain rfl : k = n := Option.some.inj hlength
      exact congrArg (fun data => (Except.ok (Reply.bytes data), m)) hbytes
  | bool b =>
      obtain rfl : (if b then 1 else 0) = n := Option.some.inj hlength
      exact congrArg (fun data => (Except.ok (Reply.bytes data), m)) hbytes
  | _ => cases hlength

theorem IsTree.mkdirs_of_isOpen (h : m.IsTree) (hnames : AllProper names)
    (hopen : m.IsOpen names) :
    ∃ m', m.Grown names m' ∧ m.mkdirs (ofNames names) = some (.ok .yes, m') := by
  obtain ⟨m', hmake, hm'⟩ := makeDirectories_of_isOpen h.hasParents hnames hopen
  exact ⟨m', hm', by rw [mkdirs, hmake]⟩

theorem IsFree.not_any {p : Path} (h : m.IsFree p) : ¬ (m.get? p).any (·.isDirectory) := by
  rw [Option.any_eq_true]
  rintro ⟨e, he, hdir⟩
  rw [h e he] at hdir
  cases hdir

theorem IsTree.create_of_isOpen (h : m.IsTree) (hnames : AllProper (names ++ [name]))
    (hopen : m.IsOpen names) (hfree : m.IsFree (ofNames (names ++ [name]))) (data : Bytes)
    (replication blockSize : Value) :
    ∃ m', m.Grown names m' ∧ m.create (ofNames (names ++ [name])) data replication blockSize =
      some (.ok (.int data.length),
        m'.put (ofNames (names ++ [name])) (Entry.file data replication blockSize)) := by
  obtain ⟨m', hmake, hm'⟩ :=
    makeDirectories_of_isOpen h.hasParents (allProper_append_singleton.mp hnames).1 hopen
  refine ⟨m', hm', ?_⟩
  rw [create, if_neg hfree.not_any, directory_ofNames hnames, hmake]

theorem IsTree.create_in_top (h : m.IsTree) (hname : name.IsProper)
    (hfree : m.IsFree (ofNames [name])) (data : Bytes) (replication blockSize : Value) :
    m.create (ofNames [name]) data replication blockSize = some (.ok (.int data.length),
      m.put (ofNames [name]) (Entry.file data replication blockSize)) := by
  have hproper : AllProper ([] ++ [name]) := List.forall_mem_singleton.mpr hname
  have hup : (ofNames [name]).directory = ['/'] := directory_ofNames hproper
  obtain ⟨e, he, hdir⟩ := h.root
  have hstored : m.contains ['/'] := contains_iff.mpr ⟨e, he⟩
  have hmake : m.makeDirectories ['/'] = some (.ok m) := by
    simp [makeDirectories, isAbsolute, ancestors_slash, hstored, he, hdir]
  rw [create, if_neg hfree.not_any, hup, hmake]

end Calls

section Listing

theorem below_ofNames (ha : AllProper a) : below (ofNames a) = stem a ++ ['/'] := by
  rw [below, stripSlashes_ofNames ha]

theorem IsTree.mem_namesBelow_iff (h : m.IsTree) (hs : m.IsSorted) (ha : AllProper a) :
    name ∈ m.namesBelow (ofNames a) ↔ name.IsProper ∧ m.contains (ofNames (a ++ [name])) := by
  have hdrop : ∀ n c, (ofNames (a ++ n :: c)).drop (below (ofNames a)).length = n ++ stem c := by
    intro n c
    have hsplit : ofNames (a ++ n :: c) = (stem a ++ ['/']) ++ (n ++ stem c) := by
      rw [ofNames_of_ne_nil (by simp), stem_append]
      simp [stem]
    rw [below_ofNames ha, hsplit, List.drop_left]
  rw [namesBelow, List.mem_filter, List.mem_map]
  constructor
  · rintro ⟨⟨p, hp, rfl⟩, hslash⟩
    obtain ⟨hcontains, b, hb, rfl, ⟨c, rfl⟩, hne⟩ := (h.mem_children_iff hs ha).mp hp
    cases c with
    | nil => exact absurd (List.append_nil a).symm hne
    | cons n c =>
        rw [hdrop] at hslash ⊢
        cases c with
        | nil =>
            rw [stem, List.flatMap_nil, List.append_nil]
            exact ⟨hb n (by simp), hcontains⟩
        | cons n' c => simp [stem] at hslash
  · rintro ⟨hname, hcontains⟩
    have hns : AllProper (a ++ [name]) := allProper_append_singleton.mpr ⟨ha, hname⟩
    refine ⟨⟨ofNames (a ++ [name]), ?_, ?_⟩, ?_⟩
    · exact (h.mem_children_iff hs ha).mpr
        ⟨hcontains, a ++ [name], hns, rfl, List.prefix_append a _, by simp⟩
    · rw [hdrop, stem, List.flatMap_nil, List.append_nil]
    · simp [hname.slash_not_mem]

theorem namesBelow_ascending (hs : m.IsSorted) (p : Path) :
    (m.namesBelow p).Pairwise (· < ·) := by
  rw [namesBelow]
  refine List.Pairwise.filter _ (List.pairwise_map.mpr ?_)
  refine (children_pairwise hs p).imp_of_mem ?_
  intro q r hq hr hlt
  obtain ⟨x, rfl⟩ := ((mem_children_iff hs p q).mp hq).2.1
  obtain ⟨y, rfl⟩ := ((mem_children_iff hs p r).mp hr).2.1
  rw [List.drop_left, List.drop_left]
  exact Path.lt_of_append_lt_append hlt

end Listing

end StorageLoad.Memory
