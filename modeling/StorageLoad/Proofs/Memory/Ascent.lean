import StorageLoad.Proofs.Memory.Parents

/-!
The walk upwards from a path to a stored one.  It ends at the top from every path with one slash
in front, and at the slashes themselves from a path with more of them, where nothing is ever
stored.  So after a history of calls it ends from all paths with one slash in front exactly if no
call has taken the top away (`walk_ends_iff`).
-/

namespace StorageLoad

namespace Path

variable {b p q : Path}

/-- An absolute path with no more than one slash in front. -/
def IsRooted (p : Path) : Prop :=
  p.isAbsolute ∧ ¬ ['/', '/'] <+: p

instance (p : Path) : Decidable p.IsRooted :=
  inferInstanceAs (Decidable (_ ∧ _))

theorem isAbsolute_iff : p.isAbsolute ↔ ['/'] <+: p := by
  cases p with
  | nil => simp [isAbsolute]
  | cons c p => simp [isAbsolute, eq_comm]

theorem all_slash_of_stripSlashes (h : (stripSlashes p).all (· = '/')) : p.all (· = '/') := by
  rw [List.all_eq_true] at h ⊢
  intro c hc
  rw [← List.mem_reverse, ← List.takeWhile_append_dropWhile (p := (· = '/')) (l := p.reverse),
    List.mem_append] at hc
  rcases hc with hc | hc
  · have htest := List.mem_takeWhile_imp hc
    exact htest
  · exact h c (List.mem_reverse.mpr hc)

theorem IsNormal.directory_ne (h : p.IsNormal) (hne : p ≠ ['/']) : p.directory ≠ p := by
  obtain ⟨names, hnames, rfl⟩ := h
  cases names using List.reverseRecOn with
  | nil => exact absurd rfl hne
  | append_singleton names name =>
      rw [directory_ofNames hnames, Ne,
        ofNames_inj (allProper_append_singleton.mp hnames).1 hnames]
      exact fun heq => List.cons_ne_nil name [] (List.self_eq_append_right.mp heq)

theorem isPrefix_directory (p : Path) : directory p <+: p := by
  rw [directory]
  split
  · exact isPrefix_upToSlash p
  · exact (isPrefix_stripSlashes _).trans (isPrefix_upToSlash p)

theorem isPrefix_iterate (p : Path) (n : Nat) : directory^[n] p <+: p := by
  induction n generalizing p with
  | zero => exact List.prefix_rfl
  | succ n ih => exact (ih (directory p)).trans (isPrefix_directory p)

theorem isPrefix_directory_of_slashes (hb : (b ++ ['/']).all (· = '/')) (h : b ++ ['/'] <+: p) :
    b ++ ['/'] <+: directory p := by
  have hup : b ++ ['/'] <+: upToSlash p := by
    obtain ⟨rest, rfl⟩ := h
    by_cases hslash : '/' ∈ rest
    · rw [upToSlash_append _ hslash]
      exact List.prefix_append _ _
    · rw [List.append_assoc, List.singleton_append, upToSlash_append_slash b hslash]
  rw [directory]
  split
  · exact hup
  · rename_i hall
    rcases List.prefix_or_prefix_of_prefix hup (isPrefix_stripSlashes (upToSlash p))
      with hpre | hpre
    · exact hpre
    · refine absurd (all_slash_of_stripSlashes ?_) hall
      rw [List.all_eq_true] at hb ⊢
      exact fun c hc => hb c (hpre.subset hc)

theorem isAbsolute_directory (h : p.isAbsolute) : (directory p).isAbsolute :=
  isAbsolute_iff.mpr (isPrefix_directory_of_slashes (b := []) rfl (isAbsolute_iff.mp h))

theorem isPrefix_iterate_directory (h : ['/', '/'] <+: p) (n : Nat) :
    ['/', '/'] <+: directory^[n] p := by
  induction n generalizing p with
  | zero => exact h
  | succ n ih => exact ih (isPrefix_directory_of_slashes (b := ['/']) rfl h)

namespace IsRooted

theorem directory (h : p.IsRooted) : (Path.directory p).IsRooted :=
  ⟨isAbsolute_directory h.1, fun hpre => h.2 (hpre.trans (isPrefix_directory p))⟩

theorem of_directory (h : (Path.directory p).IsRooted) : p.IsRooted :=
  ⟨isAbsolute_iff.mpr ((isAbsolute_iff.mp h.1).trans (isPrefix_directory p)),
    fun hpre => h.2 (isPrefix_directory_of_slashes (b := ['/']) rfl hpre)⟩

theorem iterate (h : p.IsRooted) (n : Nat) : (Path.directory^[n] p).IsRooted := by
  induction n generalizing p with
  | zero => exact h
  | succ n ih => exact ih h.directory

theorem of_iterate {n : Nat} (h : (Path.directory^[n] p).IsRooted) : p.IsRooted := by
  induction n generalizing p with
  | zero => exact h
  | succ n ih => exact (ih h).of_directory

theorem exists_cons (h : p.IsRooted) (hne : p ≠ ['/']) :
    ∃ c rest, c ≠ '/' ∧ p = '/' :: c :: rest := by
  obtain ⟨rest, rfl⟩ := isAbsolute_iff.mp h.1
  cases rest with
  | nil => exact absurd rfl hne
  | cons c rest =>
      refine ⟨c, rest, ?_, rfl⟩
      rintro rfl
      exact h.2 (List.prefix_append ['/', '/'] rest)

theorem append (h : p.IsRooted) (hne : p ≠ ['/']) (s : Path) :
    (p ++ s).IsRooted ∧ p ++ s ≠ ['/'] := by
  obtain ⟨c, rest, hc, rfl⟩ := h.exists_cons hne
  refine ⟨⟨rfl, ?_⟩, by simp⟩
  rintro ⟨t, heq⟩
  simp only [List.cons_append, List.nil_append, List.cons.injEq] at heq
  exact hc heq.2.1.symm

theorem eq_top (h : p.IsRooted) (hself : Path.directory p = p) : p = ['/'] := by
  by_contra hne
  obtain ⟨c, rest, hc, rfl⟩ := h.exists_cons hne
  have hlength := congrArg List.length hself
  obtain ⟨t, ht⟩ := exists_upToSlash (s := '/' :: c :: rest) List.mem_cons_self
  rw [Path.directory, ht] at hself hlength
  split at hself
  · rename_i hall
    rw [hself] at hall
    simp [hc] at hall
  · rename_i hall
    rw [if_neg hall, stripSlashes_append_slash] at hlength
    have hup := length_upToSlash_le ('/' :: c :: rest)
    have hstrip := length_stripSlashes_le t
    rw [ht, List.length_append, List.length_singleton] at hup
    omega

theorem exists_iterate (h : p.IsRooted) : ∃ n, Path.directory^[n] p = ['/'] := by
  induction hlength : p.length using Nat.strong_induction_on generalizing p with
  | _ length ih =>
      by_cases hself : Path.directory p = p
      · exact ⟨0, h.eq_top hself⟩
      · obtain ⟨n, hn⟩ := ih _ (hlength ▸ directory_length_lt hself) h.directory rfl
        exact ⟨n + 1, hn⟩

end IsRooted

section Ancestors

theorem iterate_mem_ancestors (p : Path) (n : Nat) : directory^[n] p ∈ ancestors p := by
  induction n generalizing p with
  | zero =>
      rw [ancestors]
      split
      · exact List.mem_singleton_self p
      · exact List.mem_cons_self
  | succ n ih =>
      rw [Function.iterate_succ_apply]
      by_cases hself : directory p = p
      · rw [hself]
        exact ih p
      · rw [ancestors, dif_neg hself]
        exact List.mem_cons_of_mem p (ih (directory p))

theorem mem_ancestors_iff : q ∈ ancestors p ↔ ∃ n, q = directory^[n] p := by
  constructor
  · induction p using ancestors.induct with
    | case1 p hself =>
        rw [ancestors, dif_pos hself]
        exact fun hq => ⟨0, List.mem_singleton.mp hq⟩
    | case2 p hself ih =>
        rw [ancestors, dif_neg hself]
        intro hq
        rcases List.mem_cons.mp hq with rfl | hq
        · exact ⟨0, rfl⟩
        · obtain ⟨n, hn⟩ := ih hq
          exact ⟨n + 1, hn⟩
  · rintro ⟨n, rfl⟩
    exact iterate_mem_ancestors p n

theorem directory_ne_of_mem_takeWhile {test : Path → Bool}
    (hfind : (ancestors p).find? test = some b)
    (hq : q ∈ (ancestors p).takeWhile fun a => !test a) : directory q ≠ q := by
  induction p using ancestors.induct with
  | case1 p hself =>
      rw [ancestors, dif_pos hself] at hfind hq
      have htest := List.find?_some hfind
      obtain rfl := List.mem_singleton.mp (List.mem_of_find?_eq_some hfind)
      rw [List.takeWhile_cons_of_neg (by simpa using htest)] at hq
      cases hq
  | case2 p hself ih =>
      rw [ancestors, dif_neg hself] at hfind hq
      by_cases htest : test p
      · rw [List.takeWhile_cons_of_neg (by simpa using htest)] at hq
        cases hq
      · rw [List.find?_cons_of_neg htest] at hfind
        rw [List.takeWhile_cons_of_pos (by simpa using htest)] at hq
        rcases List.mem_cons.mp hq with rfl | hq
        · exact hself
        · exact ih hfind hq

end Ancestors

end Path

/-- The path that a call goes up from if it comes to making directories. -/
def Memory.ascent? (m : Memory) : Request → Option Path
  | .create p _ _ _ => if (m.get? p).any (·.isDirectory) then none else some p.directory
  | .rename source target =>
      if m.contains source ∧ ¬ m.contains target then some target.directory else none
  | .mkdirs p => some p
  | _ => none

namespace Memory

open StorageLoad.Path

variable {m m' : Memory} {p q : Path}

/-- The call has taken the top away. -/
def TakesTop (request : Request) (answer : Except StoreFault Reply) : Prop :=
  answer = .ok .yes ∧ (request = .delete ['/'] ∨ ∃ target, request = .rename ['/'] target)

/-- No stored path has more than one slash in front. -/
def IsRooted (m : Memory) : Prop :=
  ∀ p, m.contains p → p.IsRooted

section Directories

theorem makeDirectories_eq_none_iff :
    m.makeDirectories p = none ↔ p.isAbsolute ∧ ∀ n, ¬ m.contains (directory^[n] p) := by
  rw [makeDirectories]
  split
  · rename_i habs
    simp_all
  · rename_i habs
    rw [Bool.not_eq_true', Bool.not_eq_false] at habs
    split
    · rename_i hfind
      refine iff_of_true rfl ⟨habs, fun n => ?_⟩
      exact List.find?_eq_none.mp hfind _ (iterate_mem_ancestors p n)
    · rename_i base hfind
      obtain ⟨n, hn⟩ := mem_ancestors_iff.mp (List.mem_of_find?_eq_some hfind)
      have hbase := List.find?_some hfind
      refine iff_of_false ?_ fun h => h.2 n (hn ▸ hbase)
      obtain ⟨e, he⟩ := contains_iff.mp hbase
      rw [he]
      dsimp only
      split <;> simp

theorem of_makeDirectories (h : m.makeDirectories p = some (.ok m')) :
    (∃ n, m.contains (directory^[n] p)) ∧ ∀ q, m'.get? q = m.get? q ∨
      m.get? q = none ∧ m'.get? q = some Entry.directory ∧ directory q ≠ q ∧
      ∃ n, q = directory^[n] p := by
  rw [makeDirectories] at h
  split at h
  · cases h
  · split at h
    · cases h
    · rename_i base hfind
      split at h
      · split at h
        · obtain rfl := Except.ok.inj (Option.some.inj h)
          obtain ⟨n, hn⟩ := mem_ancestors_iff.mp (List.mem_of_find?_eq_some hfind)
          refine ⟨⟨n, hn ▸ List.find?_some hfind⟩, fun q => ?_⟩
          rw [get?_foldl_put]
          split
          · rename_i hq
            have htest := List.mem_takeWhile_imp hq
            refine .inr ⟨?_, rfl, directory_ne_of_mem_takeWhile hfind hq, ?_⟩
            · rw [← not_contains_iff]
              simpa using htest
            · exact mem_ancestors_iff.mp ((List.takeWhile_sublist _).subset hq)
          · exact .inl rfl
        · cases h
      · cases h

/-- A call does not end if and only if the walk from its path meets nothing that is stored. -/
theorem answer_eq_none_iff {request : Request} : m.answer request = none ↔
    ∃ p, m.ascent? request = some p ∧ p.isAbsolute ∧ ∀ n, ¬ m.contains (directory^[n] p) := by
  simp only [← makeDirectories_eq_none_iff]
  cases request with
  | create p data replication blockSize =>
      rw [answer, create, ascent?]
      split
      · simp
      · cases hmake : m.makeDirectories p.directory with
        | none => simp [hmake]
        | some made => cases made <;> simp [hmake]
  | rename source target =>
      rw [answer, rename, ascent?]
      by_cases hs : m.contains source
      · by_cases ht : m.contains target
        · simp [hs, ht]
        · cases hmake : m.makeDirectories target.directory with
          | none => simp [hs, ht, hmake]
          | some made =>
              cases made with
              | error fault => simp [hs, ht, hmake]
              | ok grown =>
                  simp only [hs, ht, Bool.not_true, Bool.false_eq_true, if_false]
                  split <;> simp [hmake]
      · simp [hs]
  | mkdirs p =>
      rw [answer, mkdirs, ascent?]
      cases hmake : m.makeDirectories p with
      | none => simp [hmake]
      | some made => cases made <;> simp [hmake]
  | append | read | delete | setReplication | getReplication | listdir | isStored =>
      simp [answer, ascent?]

theorem get?_of_makeDirectories {e : Entry} (h : m.makeDirectories p = some (.ok m'))
    (he : m.get? q = some e) :
    m'.get? q = some e := by
  rcases (of_makeDirectories h).2 q with hkept | ⟨hnone, -⟩
  · exact hkept.trans he
  · rw [he] at hnone
    cases hnone

end Directories

section Rooted

theorem contains_put {e : Entry} : (m.put p e).contains q ↔ q = p ∨ m.contains q := by
  rw [contains_iff, contains_iff, get?_put]
  by_cases hqp : q = p <;> simp [hqp]

theorem contains_of_erase (h : (m.erase p).contains q) : m.contains q := by
  rw [contains_iff, get?_erase] at h
  split at h
  · obtain ⟨e, he⟩ := h
    cases he
  · exact contains_iff.mpr h

theorem IsRooted.erase (hm : m.IsRooted) (p : Path) : (m.erase p).IsRooted :=
  fun q hq => hm q (contains_of_erase hq)

theorem IsRooted.put (hm : m.IsRooted) (hp : p.IsRooted) (e : Entry) : (m.put p e).IsRooted := by
  intro q hq
  rcases contains_put.mp hq with rfl | hq
  · exact hp
  · exact hm q hq

theorem IsRooted.move (hm : m.IsRooted) (hq : q.IsRooted) (p : Path) : (m.move p q).IsRooted := by
  rw [Memory.move]
  split
  · exact hm
  · exact (hm.erase p).put hq _

theorem get?_move_of_ne {source target : Path} (hs : q ≠ source) (ht : q ≠ target) :
    (m.move source target).get? q = m.get? q := by
  rw [move]
  split
  · rfl
  · rw [get?_put, get?_erase, if_neg ht, if_neg hs]

theorem top_not_mem_children (hs : m.IsSorted) (p : Path) : ['/'] ∉ m.children p := by
  intro hmem
  obtain ⟨-, hpre, hne⟩ := (mem_children_iff hs p ['/']).mp hmem
  exact hne (hpre.eq_of_length_le (by simp [below]))

theorem contains_congr (h : m'.get? q = m.get? q) : m'.contains q ↔ m.contains q := by
  rw [contains_iff, contains_iff, h]

theorem IsRooted.of_makeDirectories (hm : m.IsRooted) (h : m.makeDirectories p = some (.ok m')) :
    p.IsRooted ∧ m'.IsRooted ∧ (m'.contains ['/'] ↔ m.contains ['/']) := by
  obtain ⟨⟨n, hn⟩, hmade⟩ := Memory.of_makeDirectories h
  have hp := (hm _ hn).of_iterate
  refine ⟨hp, fun q hq => ?_, ?_⟩
  · rcases hmade q with heq | ⟨-, -, -, n, rfl⟩
    · exact hm q ((contains_congr heq).mp hq)
    · exact hp.iterate n
  · rcases hmade ['/'] with heq | ⟨-, -, hne, -⟩
    · exact contains_congr heq
    · exact absurd rfl hne

theorem contains_top_of_makeDirectories
    (h : m.makeDirectories (directory ['/']) = some (.ok m')) :
    m.contains ['/'] := by
  obtain ⟨⟨n, hn⟩, -⟩ := Memory.of_makeDirectories h
  exact Function.iterate_fixed (f := directory) (x := ['/']) rfl n ▸ hn

end Rooted

theorem IsSorted.of_edits (hs : m.IsSorted) (h : Edits (fun _ => True) m m') : m'.IsSorted :=
  h.keeps (fun _ _ => IsSorted.of_edit) hs

section Moves

/-- From where and to where a rename moves what is below its source, in its order. -/
def movesBelow (m : Memory) (source target : Path) : List (Path × Path) :=
  (m.children source).map fun child => (child, target ++ child.drop source.length)

def moveAll (m : Memory) (moves : List (Path × Path)) : Memory :=
  moves.foldl (fun m (source, target) => m.move source target) m

theorem move_of_not_contains {source : Path} (h : ¬ m.contains source) (target : Path) :
    m.move source target = m := by
  rw [move, not_contains_iff.mp h]

/-- The service with the directories that a rename makes for its target; nothing if it does not
come to that. -/
def opened? (m : Memory) (source target : Path) : Option Memory :=
  if m.contains source ∧ ¬ m.contains target then
    match m.makeDirectories target.directory with
    | some (.ok grown) => some grown
    | _ => none
  else none

theorem of_opened? {source target : Path} {grown : Memory}
    (h : m.opened? source target = some grown) :
    m.contains source ∧ ¬ m.contains target ∧
    m.makeDirectories target.directory = some (.ok grown) := by
  rw [opened?] at h
  split at h
  · rename_i hends
    refine ⟨hends.1, hends.2, ?_⟩
    split at h
    · rename_i hmake
      cases h
      exact hmake
    · cases h
  · cases h

theorem rename_cases {source target : Path} {answer : Except StoreFault Reply}
    (h : m.rename source target = some (answer, m')) :
    answer ≠ .ok .yes ∧ m.opened? source target = none ∧ m' = m ∨
    ∃ grown, m.opened? source target = some grown ∧
      m' = (grown.moveAll (grown.movesBelow source target)).move source target ∧
      (answer = .ok .yes ∨
        ¬ (grown.moveAll (grown.movesBelow source target)).contains source) := by
  rw [rename] at h
  split at h
  · rename_i hstored
    cases h
    exact .inl ⟨by simp, by simp_all [opened?], rfl⟩
  · rename_i hstored
    split at h
    · rename_i hfree
      cases h
      refine .inl ⟨fun heq => ?_, by simp_all [opened?], rfl⟩
      exact Bool.noConfusion (Value.bool.inj (Reply.value.inj (Except.ok.inj heq)))
    · rename_i hfree
      split at h
      · cases h
      · rename_i hmake
        cases h
        exact .inl ⟨by simp, by simp_all [opened?], rfl⟩
      · rename_i grown hmake
        refine .inr ⟨grown, by simp_all [opened?], ?_⟩
        rw [moveAll, movesBelow, List.foldl_map]
        dsimp only at h
        split at h
        · cases h
          exact ⟨rfl, .inl rfl⟩
        · rename_i hgone
          cases h
          exact ⟨(move_of_not_contains hgone target).symm, .inr hgone⟩

theorem get?_moveAll_of_ne {moves : List (Path × Path)}
    (h : ∀ move ∈ moves, q ≠ move.1 ∧ q ≠ move.2) :
    (m.moveAll moves).get? q = m.get? q := by
  induction moves generalizing m with
  | nil => rfl
  | cons move moves ih =>
      rw [List.forall_mem_cons] at h
      exact (ih h.2).trans (get?_move_of_ne h.1.1 h.1.2)

theorem IsRooted.moveAll {moves : List (Path × Path)} (hm : m.IsRooted)
    (h : ∀ move ∈ moves, move.2.IsRooted) :
    (m.moveAll moves).IsRooted := by
  induction moves generalizing m with
  | nil => exact hm
  | cons move moves ih =>
      rw [List.forall_mem_cons] at h
      exact ih (hm.move h.1 move.1) h.2

end Moves

section Calls

variable {answer : Except StoreFault Reply}

theorem IsRooted.of_mkdirs (hm : m.IsRooted) (h : m.mkdirs p = some (answer, m')) :
    m'.IsRooted ∧ (m'.contains ['/'] ↔ m.contains ['/']) := by
  rw [mkdirs] at h
  split at h
  · cases h
  · cases h
    exact ⟨hm, Iff.rfl⟩
  · rename_i hmake
    cases h
    exact (hm.of_makeDirectories hmake).2

theorem IsRooted.of_create (hm : m.IsRooted) {data : Bytes} {replication blockSize : Value}
    (h : m.create p data replication blockSize = some (answer, m')) :
    m'.IsRooted ∧ (m'.contains ['/'] ↔ m.contains ['/']) := by
  rw [create] at h
  split at h
  · cases h
    exact ⟨hm, Iff.rfl⟩
  · split at h
    · cases h
    · cases h
      exact ⟨hm, Iff.rfl⟩
    · rename_i grown hmake
      cases h
      obtain ⟨hp, hgrown, htop⟩ := hm.of_makeDirectories hmake
      refine ⟨hgrown.put hp.of_directory _, ?_⟩
      rw [contains_put, htop, or_iff_right_iff_imp]
      rintro rfl
      exact contains_top_of_makeDirectories hmake

/-- The stored file at a path is changed, if anything is. -/
def ChangesFile (m : Memory) (p : Path) (m' : Memory) : Prop :=
  m' = m ∨ ∃ e e', m.file p = .ok e ∧ m' = m.put p e'

theorem changesFile_append (p : Path) (data : Bytes) : m.ChangesFile p (m.append p data).2 := by
  rw [append]
  cases he : m.file p with
  | error fault => exact .inl rfl
  | ok e => exact .inr ⟨e, _, he, rfl⟩

theorem changesFile_setReplication (p : Path) (factor : Value) :
    m.ChangesFile p (m.setReplication p factor).2 := by
  rw [setReplication]
  cases he : m.file p with
  | error fault => exact .inl rfl
  | ok e => exact .inr ⟨e, _, he, rfl⟩

theorem changesFile_getReplication (p : Path) : m.ChangesFile p (m.getReplication p).2 := by
  rw [getReplication]
  cases he : m.file p with
  | error fault => exact .inl rfl
  | ok e => exact .inr ⟨e, _, he, rfl⟩

theorem IsRooted.of_changesFile (hm : m.IsRooted) (h : m.ChangesFile p m') :
    m'.IsRooted ∧ (m'.contains ['/'] ↔ m.contains ['/']) := by
  obtain rfl | ⟨e, e', he, rfl⟩ := h
  · exact ⟨hm, Iff.rfl⟩
  have hp : m.contains p := contains_iff.mpr ⟨e, (file_eq_ok_iff.mp he).1⟩
  refine ⟨hm.put (hm p hp) e', ?_⟩
  rw [contains_put, or_iff_right_iff_imp]
  rintro rfl
  exact hp

theorem IsRooted.of_delete (hm : m.IsRooted) (hs : m.IsSorted) (h : m.delete p = (answer, m')) :
    m'.IsRooted ∧ (m'.contains ['/'] ↔ m.contains ['/'] ∧ ¬ (answer = .ok .yes ∧ p = ['/'])) := by
  have hrest : ((m.children p).foldl Memory.erase m).IsRooted :=
    foldl_induction IsRooted (fun m q hm => hm.erase q) _ hm
  have htop : ((m.children p).foldl Memory.erase m).contains ['/'] ↔ m.contains ['/'] :=
    contains_congr (by rw [get?_foldl_erase, if_neg (top_not_mem_children hs p)])
  rw [delete] at h
  split at h
  · cases h
    exact ⟨hm, by simp⟩
  · dsimp only at h
    split at h
    · cases h
      refine ⟨hrest.erase p, ?_⟩
      rw [contains_iff, get?_erase]
      rcases eq_or_ne p ['/'] with rfl | hne
      · simp
      · rw [if_neg hne.symm, ← contains_iff, htop]
        simp [hne]
    · cases h
      exact ⟨hrest, by simp [htop]⟩

theorem IsRooted.of_rename (hm : m.IsRooted) (hs : m.IsSorted) {source target : Path}
    (h : m.rename source target = some (answer, m')) :
    m'.IsRooted ∧
    (m'.contains ['/'] ↔ m.contains ['/'] ∧ ¬ (answer = .ok .yes ∧ source = ['/'])) := by
  rcases rename_cases h with ⟨hno, -, rfl⟩ | ⟨grown, hopened, rfl, hanswer⟩
  · exact ⟨hm, by simp [hno]⟩
  obtain ⟨hsource, hfree, hmake⟩ := of_opened? hopened
  obtain ⟨hdir, hgrown, htop⟩ := hm.of_makeDirectories hmake
  have htarget := hdir.of_directory
  have hne : target ≠ ['/'] := by
    rintro rfl
    exact hfree (contains_top_of_makeDirectories hmake)
  have hsorted : grown.IsSorted := hs.of_edits (edits_of_makeDirectories hmake)
  have hgoal : ∀ move ∈ grown.movesBelow source target, ['/'] ≠ move.1 ∧ move.2.IsRooted ∧
      ['/'] ≠ move.2 := by
    intro move hmove
    obtain ⟨child, hchild, rfl⟩ := List.mem_map.mp hmove
    obtain ⟨hrooted, hother⟩ := htarget.append hne (child.drop source.length)
    exact ⟨fun heq => top_not_mem_children hsorted source (heq ▸ hchild), hrooted, hother.symm⟩
  have hkept : (grown.moveAll (grown.movesBelow source target)).get? ['/'] = grown.get? ['/'] :=
    get?_moveAll_of_ne fun move hmove => ⟨(hgoal move hmove).1, (hgoal move hmove).2.2⟩
  refine ⟨(hgrown.moveAll fun move hmove => (hgoal move hmove).2.1).move htarget source, ?_⟩
  rcases eq_or_ne source ['/'] with rfl | hother
  · have hstored := (contains_congr hkept).mpr (htop.mpr hsource)
    obtain ⟨e, he⟩ := contains_iff.mp hstored
    rw [contains_iff, get?_move _ he, if_neg hne.symm, if_pos rfl]
    simp [hanswer.resolve_right (not_not_intro hstored)]
  · rw [contains_congr ((get?_move_of_ne hother.symm hne.symm).trans hkept), htop]
    simp [hother]

theorem IsRooted.of_answer (hm : m.IsRooted) (hs : m.IsSorted) {request : Request}
    (h : m.answer request = some (answer, m')) :
    m'.IsRooted ∧ (m'.contains ['/'] ↔ m.contains ['/'] ∧ ¬ TakesTop request answer) := by
  cases request with
  | create p data replication blockSize => simpa [TakesTop] using hm.of_create h
  | append p data =>
      obtain rfl := congrArg Prod.snd (Option.some.inj h)
      simpa [TakesTop] using hm.of_changesFile (changesFile_append p data)
  | read p length =>
      obtain rfl := congrArg Prod.snd (Option.some.inj h)
      simpa [TakesTop, read_snd] using hm
  | delete p => simpa [TakesTop] using hm.of_delete hs (Option.some.inj h)
  | rename source target => simpa [TakesTop] using hm.of_rename hs h
  | setReplication p factor =>
      obtain rfl := congrArg Prod.snd (Option.some.inj h)
      simpa [TakesTop] using hm.of_changesFile (changesFile_setReplication p factor)
  | getReplication p =>
      obtain rfl := congrArg Prod.snd (Option.some.inj h)
      simpa [TakesTop] using hm.of_changesFile (changesFile_getReplication p)
  | listdir p =>
      obtain rfl := congrArg Prod.snd (Option.some.inj h)
      simpa [TakesTop, listdir_snd] using hm
  | mkdirs p => simpa [TakesTop] using hm.of_mkdirs h
  | isStored p =>
      obtain rfl := congrArg Prod.snd (Option.some.inj h)
      simpa [TakesTop] using hm

theorem IsRooted.of_serve (hm : m.IsRooted) (hs : m.IsSorted) {requests : List Request}
    {answers : List (Except StoreFault Reply)}
    (h : Storage.serve requests m = some (answers, m')) :
    m'.IsRooted ∧ (m'.contains ['/'] ↔
      m.contains ['/'] ∧ ∀ call ∈ requests.zip answers, ¬ TakesTop call.1 call.2) := by
  induction requests generalizing m answers with
  | nil =>
      obtain ⟨rfl, rfl⟩ := Prod.mk.inj (Option.some.inj h)
      simpa using hm
  | cons request requests ih =>
      obtain ⟨answer, mid, rest, hhead, htail, rfl⟩ := Storage.exists_of_serve_cons h
      obtain ⟨hmid, htop⟩ := hm.of_answer hs hhead
      have hmids : mid.IsSorted := hs.of_edits (edits_of_answer (fun _ _ => trivial) hhead)
      obtain ⟨hm', htop'⟩ := ih hmid hmids htail
      refine ⟨hm', ?_⟩
      rw [htop', htop, List.zip_cons_cons, List.forall_mem_cons, and_assoc]

end Calls

theorem isRooted_fresh (lag : Int) : (fresh lag).IsRooted := by
  intro p hp
  obtain ⟨e, he⟩ := contains_iff.mp hp
  rw [get?_fresh] at he
  split at he
  · rename_i heq
    rw [heq]
    decide
  · cases he

/-- After every history of calls that ended, the walk ends from all paths with one slash in front
exactly if no call has taken the top away; from a path with more slashes in front it never ends;
and a call does not end exactly if the walk it starts meets nothing that is stored. -/
theorem walk_ends_iff {lag : Int} {requests : List Request}
    {answers : List (Except StoreFault Reply)}
    (h : Storage.serve requests (fresh lag) = some (answers, m)) :
    ((∀ p : Path, p.IsRooted → ∃ n, m.contains (directory^[n] p)) ↔
        ∀ call ∈ requests.zip answers, ¬ TakesTop call.1 call.2) ∧
      (∀ p : Path, ['/', '/'] <+: p → ∀ n, ¬ m.contains (directory^[n] p)) ∧
      ∀ request, m.answer request = none ↔
        ∃ p, m.ascent? request = some p ∧ p.isAbsolute ∧ ∀ n, ¬ m.contains (directory^[n] p) := by
  obtain ⟨hm, htop⟩ := (isRooted_fresh lag).of_serve (isSorted_fresh lag) h
  refine ⟨?_, ?_, fun request => answer_eq_none_iff⟩
  · have hfresh : (fresh lag).contains ['/'] := rfl
    rw [and_iff_right hfresh] at htop
    rw [← htop]
    constructor
    · intro hends
      obtain ⟨n, hn⟩ := hends ['/'] (by decide)
      exact Function.iterate_fixed (f := directory) (x := ['/']) rfl n ▸ hn
    · intro hstored p hp
      obtain ⟨n, hn⟩ := hp.exists_iterate
      exact ⟨n, hn ▸ hstored⟩
  · intro p hp n hstored
    exact (hm _ hstored).2 (isPrefix_iterate_directory hp n)

/-- A directory is made with a file in it, renamed and deleted. -/
def emptied : List Request :=
  [.create (ofNames [['a'], ['x'], ['f']]) [1] (.int 1) (.int 64),
    .rename (ofNames [['a']]) (ofNames [['b']]), .delete (ofNames [['b']])]

/-- The walk from a path with slashes in twos and at its end. -/
theorem walk_ends_iff_emptied : ∃ answers m, Storage.serve emptied (fresh 1) = some (answers, m) ∧
    (∀ call ∈ emptied.zip answers, ¬ TakesTop call.1 call.2) ∧
    ∃ n, m.contains (directory^[n] (ofString "/q//r/")) := by
  obtain ⟨⟨answers, m⟩, hserve⟩ := Option.isSome_iff_exists.mp
    (by decide +kernel : (Storage.serve emptied (fresh 1)).isSome)
  have hkept : ∀ call ∈ emptied.zip answers, ¬ TakesTop call.1 call.2 := by
    rintro ⟨request, answer⟩ hcall ⟨-, htakes⟩
    have hrequest := (List.of_mem_zip hcall).1
    simp only [emptied, List.mem_cons, List.not_mem_nil, or_false] at hrequest
    rcases hrequest with rfl | rfl | rfl
    all_goals simp [ofNames, stem] at htakes
  exact ⟨answers, m, hserve, hkept, (walk_ends_iff hserve).1.mpr hkept _ (by decide)⟩

/-- Once the top is deleted nothing is stored above any path; and nothing is stored above a path
with two slashes in front, even if no call has been made. -/
theorem walk_endless : (∃ answers m, Storage.serve [.delete ['/']] (fresh 0) = some (answers, m) ∧
      (∀ p n, ¬ m.contains (directory^[n] p)) ∧ m.mkdirs (ofNames [['a']]) = none) ∧
    (fresh 0).mkdirs (ofString "//a") = none :=
  ⟨⟨_, _, rfl, fun _ _ => Bool.false_ne_true, by decide +kernel⟩, by decide +kernel⟩

end Memory

end StorageLoad
