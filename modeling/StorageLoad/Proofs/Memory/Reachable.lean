import StorageLoad.Proofs.History
import StorageLoad.Proofs.Memory.Files

/-!
What holds of the service in memory after every history of calls.  The main statement is that
calls that respect the tree of the stored paths end and keep it (`serve_isTree`).
-/

namespace StorageLoad

open StorageLoad.Path

/-- A call on normalised absolute paths that neither removes nor moves the top, and moves nothing
below itself. -/
def Request.RespectsTree : Request → Prop
  | create path _ _ _ => path.IsNormal
  | append path _ => path.IsNormal
  | read path _ => path.IsNormal
  | delete path => path.IsNormal ∧ path ≠ ['/']
  | rename source target =>
      source.IsNormal ∧ target.IsNormal ∧ source ≠ ['/'] ∧ ¬ source ++ ['/'] <+: target
  | setReplication path _ => path.IsNormal
  | getReplication path => path.IsNormal
  | listdir path => path.IsNormal
  | mkdirs path => path.IsNormal
  | isStored path => path.IsNormal

namespace Memory

variable {m : Memory}

/-- A tree whose table is in order. -/
def IsOrderly (m : Memory) : Prop :=
  m.IsSorted ∧ m.IsTree

theorem file_eq_ok_iff {p : Path} {e : Entry} :
    m.file p = .ok e ↔ m.get? p = some e ∧ e.isDirectory = false := by
  rw [file]
  cases m.get? p with
  | none => simp
  | some d => by_cases hdir : d.isDirectory <;> grind

theorem IsOrderly.put_of_file (h : m.IsOrderly) {p : Path} {e : Entry} (he : m.file p = .ok e)
    (e' : Entry) : (m.put p e').IsOrderly := by
  obtain ⟨hget, hfile⟩ := file_eq_ok_iff.mp he
  exact ⟨h.1.put p e', h.2.put_of_file hget hfile e'⟩

theorem IsOrderly.append (h : m.IsOrderly) (p : Path) (data : Bytes) :
    (m.append p data).2.IsOrderly := by
  rw [Memory.append]
  cases he : m.file p with
  | error fault => exact h
  | ok e => exact h.put_of_file he _

theorem IsOrderly.setReplication (h : m.IsOrderly) (p : Path) (factor : Value) :
    (m.setReplication p factor).2.IsOrderly := by
  rw [Memory.setReplication]
  cases he : m.file p with
  | error fault => exact h
  | ok e => exact h.put_of_file he _

theorem IsOrderly.getReplication (h : m.IsOrderly) (p : Path) :
    (m.getReplication p).2.IsOrderly := by
  rw [Memory.getReplication]
  cases he : m.file p with
  | error fault => exact h
  | ok e => exact h.put_of_file he _

theorem IsOrderly.delete (h : m.IsOrderly) {p : Path} (hp : p.IsNormal) (hne : p ≠ ['/']) :
    (m.delete p).2.IsOrderly := by
  obtain ⟨a, ha, rfl⟩ := hp
  have hanil : a ≠ [] := by
    rintro rfl
    exact hne rfl
  by_cases hstored : m.contains (ofNames a)
  · obtain ⟨m', heq, hm'⟩ := h.2.delete h.1 ha hstored
    rw [heq]
    exact ⟨hm'.sorted, hm'.isTree h.2 hanil⟩
  · rw [Memory.delete, if_pos (by simpa using hstored)]
    exact h

theorem IsOrderly.exists_fault_or_isOpen (h : m.IsOrderly) {names : List Name}
    (hnames : AllProper names) :
    (∃ fault, m.makeDirectories (ofNames names) = some (.error fault)) ∨ m.IsOpen names := by
  by_cases hopen : m.IsOpen names
  · exact Or.inr hopen
  · obtain ⟨p, hp⟩ := makeDirectories_of_not_isOpen h.2.hasParents hnames hopen
    exact Or.inl ⟨.isFile p, hp⟩

theorem IsOrderly.exists_mkdirs (h : m.IsOrderly) {p : Path} (hp : p.IsNormal) :
    ∃ answer m', m.mkdirs p = some (answer, m') ∧ m'.IsOrderly := by
  obtain ⟨names, hnames, rfl⟩ := hp
  rcases h.exists_fault_or_isOpen hnames with ⟨fault, hmake⟩ | hopen
  · exact ⟨.error fault, m, by rw [mkdirs, hmake], h⟩
  · obtain ⟨m', hm', hmkdirs⟩ := h.2.mkdirs_of_isOpen hnames hopen
    exact ⟨_, m', hmkdirs, hm'.sorted h.1, hm'.isTree h.2 hnames hopen⟩

theorem IsOrderly.exists_create (h : m.IsOrderly) {p : Path} (hp : p.IsNormal) (data : Bytes)
    (replication blockSize : Value) :
    ∃ answer m', m.create p data replication blockSize = some (answer, m') ∧ m'.IsOrderly := by
  by_cases hdir : (m.get? p).any (·.isDirectory)
  · exact ⟨.error (.isDirectory p), m, by rw [create, if_pos hdir], h⟩
  · have hfree : m.IsFree p := by
      intro e he
      simpa [he] using hdir
    obtain ⟨names, hnames, rfl⟩ := hp
    cases names using List.reverseRecOn with
    | nil => exact absurd rfl (h.2.isFree_ne_slash hfree)
    | append_singleton names name =>
        have hup := (allProper_append_singleton.mp hnames).1
        rcases h.exists_fault_or_isOpen hup with ⟨fault, hmake⟩ | hopen
        · refine ⟨.error fault, m, ?_, h⟩
          rw [create, if_neg hdir, directory_ofNames hnames, hmake]
        · obtain ⟨m', hm', hcreate⟩ :=
            h.2.create_of_isOpen hnames hopen hfree data replication blockSize
          refine ⟨_, _, hcreate, (hm'.sorted h.1).put _ _, ?_⟩
          refine (hm'.isTree h.2 hup hopen).put hnames ?_ ?_ _
          · exact hm'.hasDirectory_of_isPrefix hopen List.prefix_rfl
          · intro e he
            rw [hm'.get?_of_not_isPrefix hup hnames (not_append_singleton_isPrefix names name)]
              at he
            exact hfree e he

theorem IsOrderly.exists_rename (h : m.IsOrderly) {source target : Path} (hs : source.IsNormal)
    (ht : target.IsNormal) (hne : source ≠ ['/']) (hbelow : ¬ source ++ ['/'] <+: target) :
    ∃ answer m', m.rename source target = some (answer, m') ∧ m'.IsOrderly := by
  by_cases hstored : m.contains source
  · by_cases htaken : m.contains target
    · exact ⟨.ok .no, m, by rw [rename, if_neg (by simpa using hstored), if_pos htaken], h⟩
    · obtain ⟨a, ha, rfl⟩ := hs
      obtain ⟨names, hnames, rfl⟩ := ht
      have hanil : a ≠ [] := by
        rintro rfl
        exact hne rfl
      cases names using List.reverseRecOn with
      | nil => exact absurd (HasDirectory.contains h.2.root) htaken
      | append_singleton names name =>
          have hup := (allProper_append_singleton.mp hnames).1
          have hnot : ¬ a <+: names ++ [name] :=
            not_isPrefix_of_not_below ha hnames hanil (fun heq => htaken (heq ▸ hstored)) hbelow
          rcases h.exists_fault_or_isOpen hup with ⟨fault, hmake⟩ | hopen
          · refine ⟨.error fault, m, ?_, h⟩
            rw [rename, if_neg (by simpa using hstored), if_neg htaken, directory_ofNames hnames,
              hmake]
          · obtain ⟨grown, m', hgrown, heq, hm'⟩ :=
              h.2.rename h.1 ha hstored hnames htaken hnot hopen
            exact ⟨.ok .yes, m', heq, hm'.sorted,
              hm'.isTree h.2 hgrown hopen ha hanil hnames hnot⟩
  · exact ⟨.error (.notFound source), m, by rw [rename, if_pos (by simpa using hstored)], h⟩

theorem IsOrderly.exists_answer (h : m.IsOrderly) {request : Request}
    (hr : request.RespectsTree) :
    ∃ answer m', Storage.answer request m = some (answer, m') ∧ m'.IsOrderly := by
  cases request with
  | create path data replication blockSize => exact h.exists_create hr data replication blockSize
  | append path data => exact ⟨_, _, rfl, h.append path data⟩
  | read path length =>
      refine ⟨_, (m.read path length).2, rfl, ?_⟩
      rw [read_snd]
      exact h
  | delete path => exact ⟨_, _, rfl, h.delete hr.1 hr.2⟩
  | rename source target => exact h.exists_rename hr.1 hr.2.1 hr.2.2.1 hr.2.2.2
  | setReplication path factor => exact ⟨_, _, rfl, h.setReplication path factor⟩
  | getReplication path => exact ⟨_, _, rfl, h.getReplication path⟩
  | listdir path =>
      refine ⟨_, (m.listdir path).2, rfl, ?_⟩
      rw [listdir_snd]
      exact h
  | mkdirs path => exact h.exists_mkdirs hr
  | isStored path => exact ⟨_, _, rfl, h⟩

/-- After every history of calls that respect the tree, each of which may have failed, the stored
paths make a tree in which nothing lies below a file. -/
theorem serve_isTree (lag : Int) {requests : List Request}
    (hr : ∀ request ∈ requests, request.RespectsTree) :
    ∃ answers m, Storage.serve requests (fresh lag) = some (answers, m) ∧ m.IsTree ∧
      ∀ p q e, m.get? p = some e → e.isDirectory = false → m.contains q → ¬ p ++ ['/'] <+: q := by
  obtain ⟨answers, m, hserve, hm⟩ := Storage.exists_serve IsOrderly Request.RespectsTree
    (fun request m hm hr => hm.exists_answer hr) hr ⟨isSorted_fresh lag, isTree_fresh lag⟩
  refine ⟨answers, m, hserve, hm.2, ?_⟩
  intro p q e he hfile hq
  exact hm.2.not_isPrefix_of_file he hfile hq

/-- A file is written below two directories, the upper one is moved, and a file is asked for as a
directory. -/
def movedTree : List Request :=
  [.create (ofNames [['a'], ['b'], ['f']]) [1, 2] (.int 3) (.int 64),
    .rename (ofNames [['a']]) (ofNames [['c'], ['d']]),
    .mkdirs (ofNames [['c'], ['d'], ['b'], ['f']]), .delete (ofNames [['c'], ['d']])]

theorem respectsTree_of_mem_movedTree : ∀ request ∈ movedTree, request.RespectsTree := by
  intro request hrequest
  simp only [movedTree, List.mem_cons, List.not_mem_nil, or_false] at hrequest
  rcases hrequest with rfl | rfl | rfl | rfl
  · exact ⟨_, by decide, rfl⟩
  · refine ⟨⟨_, by decide, rfl⟩, ⟨_, by decide, rfl⟩, ?_, ?_⟩
    · decide
    · decide
  · exact ⟨_, by decide, rfl⟩
  · exact ⟨⟨_, by decide, rfl⟩, by decide⟩

theorem serve_isTree_movedTree :
    ∃ answers m, Storage.serve movedTree (fresh 2) = some (answers, m) ∧ m.IsTree ∧
      ∀ p q e, m.get? p = some e → e.isDirectory = false → m.contains q → ¬ p ++ ['/'] <+: q :=
  serve_isTree 2 respectsTree_of_mem_movedTree

end Memory

end StorageLoad
