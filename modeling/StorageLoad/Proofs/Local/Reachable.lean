import StorageLoad.Proofs.History
import StorageLoad.Proofs.Host.Additions
import StorageLoad.Proofs.Host.Moves
import StorageLoad.Proofs.Local

/-!
The host's tree under the calls of the service.  Whatever texts are given for paths, no call takes
away a directory that something lies in, nor does it put anything where no directory is: what was
a tree when the service was set up is one after every history (`isSound_of_serve`).
-/

namespace StorageLoad.Local

open StorageLoad.Path
open StorageLoad.Host

/-- The service stands on a tree, in a place that normalised paths lead to. -/
structure IsSound (s : Local) : Prop where
  isTree : s.tree.IsTree
  proper : AllProper s.root

variable {s s' : Local} {p source target : Path} {tree : Tree} {place goal : Place}

theorem obstruct_snd (s : Local) (what : Refusal) (cause : Obstacle) :
    (s.obstruct what cause).2 = s := by
  rw [obstruct]
  split <;> rfl

theorem get?_below_eq_none_of_canMove (h : s.tree.IsTree) {slashed : Bool}
    (hmove : s.canMove place goal slashed) {c : List Name} (hc : c ≠ []) :
    s.tree.get? (goal ++ c) = none := by
  by_contra hne
  obtain ⟨node, hnode⟩ := Option.ne_none_iff_exists'.mp hne
  have hstored := Tree.contains_of_get? hnode
  obtain ⟨name, rest, rfl⟩ := List.exists_cons_of_ne_nil hc
  have hdir : s.tree.get? goal = some .directory :=
    h.directory_of_isPrefix hstored (List.prefix_append goal _) (by simp)
  have hchild : s.tree.contains (goal ++ [name]) := by
    rcases eq_or_ne rest [] with rfl | hrest
    · exact hstored
    · refine Tree.contains_of_get?
        (h.directory_of_isPrefix hstored ?_ (by simpa using hrest.symm))
      exact (List.prefix_append_right_inj goal).mpr (List.prefix_append [name] rest)
  have hlisted := (h.mem_namesBelow_iff goal name).mpr hchild
  have hempty : (s.tree.namesBelow goal).isEmpty = false := by
    rw [List.isEmpty_eq_false_iff_exists_mem]
    exact ⟨name, hlisted⟩
  simp [canMove, hempty, Tree.isDirectory_iff.mpr hdir, Tree.contains_of_get? hdir] at hmove

theorem not_isPrefix_of_canMove {slashed : Bool} (hmove : s.canMove place goal slashed) :
    ¬ place <+: goal := by
  rw [canMove, Bool.and_eq_true, Bool.and_eq_true, Bool.not_eq_true', ← Bool.not_eq_true,
    List.isPrefixOf_iff_prefix] at hmove
  exact hmove.1.2

theorem locate_of_renameTarget_eq_ok (h : s.renameTarget p = .ok goal) :
    ∃ ns, ns ≠ [] ∧ s.tree.locate s.root ns = .ok goal := by
  simp only [renameTarget] at h
  split at h
  · rename_i name hlast
    split at h
    · cases h
    · refine ⟨_, ?_, h⟩
      intro hnil
      rw [hnil] at hlast
      cases hlast
  · cases h

theorem read_snd (s : Local) (p : Path) (length : Value) : (s.read p length).2 = s := by
  rw [Local.read]
  split <;> rfl

theorem getReplication_snd (s : Local) (p : Path) : (s.getReplication p).2 = s := by
  rw [Local.getReplication]
  split <;> rfl

theorem listdir_snd (s : Local) (p : Path) : (s.listdir p).2 = s := by
  rw [Local.listdir]
  split
  · rfl
  · split <;> rfl

namespace IsSound

theorem extended_makeDirectories (h : s.IsSound) (ns : List Name) :
    s.tree.Extended (fun _ => True) (s.tree.makeDirectories s.root ns).2 := by
  have hext :
      s.tree.Extended (fun _ => True) (s.tree.makeDirectories s.root ns.reverse.reverse).2 :=
    h.isTree.extended_makeDirectories h.proper (fun _ _ => trivial) fun _ _ _ _ _ => trivial
  rwa [List.reverse_reverse] at hext

theorem isTree_makeDirectories (h : s.IsSound) (ns : List Name) :
    (s.tree.makeDirectories s.root ns).2.IsTree :=
  (h.extended_makeDirectories ns).isTree

theorem isTree_insert_of_fileTarget {t : Tree} (h : t.IsTree) {base : Place}
    (hplace : t.fileTarget base (names p) = .ok place) (node : Node) :
    Tree.IsTree (t.insert place node) := by
  obtain ⟨hwalk, hfree⟩ := Tree.of_fileTarget_eq_ok hplace
  exact h.insert_of_seated (h.seated_of_walk (fun hnil => absurd hnil (names_ne_nil p)) hwalk)
    (Or.inr hfree)

theorem create (h : s.IsSound) (p : Path) (data : Bytes) (replication : Value) :
    (s.create p data replication).2.IsSound := by
  have hmade := h.isTree_makeDirectories (directoryNames p)
  rw [Local.create]
  rcases hmake : s.tree.makeDirectories s.root (directoryNames p) with ⟨cause | _, tree⟩
  all_goals rw [hmake] at hmade
  · simp only [obstruct_snd]
    exact ⟨hmade, h.proper⟩
  · dsimp only
    cases htarget : tree.fileTarget s.root (names p) with
    | error cause =>
        simp only [obstruct_snd]
        exact ⟨hmade, h.proper⟩
    | ok place => exact ⟨isTree_insert_of_fileTarget hmade htarget _, h.proper⟩

theorem append (h : s.IsSound) (p : Path) (data : Bytes) : (s.append p data).2.IsSound := by
  rw [Local.append]
  split
  · exact h
  · rename_i htarget
    exact ⟨isTree_insert_of_fileTarget h.isTree htarget _, h.proper⟩
  · exact h

theorem delete (h : s.IsSound) (p : Path) : (s.delete p).2.IsSound := by
  rw [Local.delete]
  split
  · exact h
  · dsimp only
    split
    · exact h
    · exact ⟨h.isTree.erase _, h.proper⟩
    · split
      · exact ⟨(h.isTree.clear _).erase _, h.proper⟩
      · exact ⟨h.isTree.clear _, h.proper⟩

theorem rename (h : s.IsSound) (source target : Path) : (s.rename source target).2.IsSound := by
  have hmade := h.isTree_makeDirectories (directoryNames target)
  rw [Local.rename]
  dsimp only
  split
  · exact h
  · split
    · exact h
    · rcases hmake : s.tree.makeDirectories s.root (directoryNames target) with ⟨cause | _, tree⟩
      all_goals rw [hmake] at hmade
      · simp only [obstruct_snd]
        exact ⟨hmade, h.proper⟩
      · dsimp only
        split
        · simp only [obstruct_snd]
          exact ⟨hmade, h.proper⟩
        · exact ⟨hmade, h.proper⟩
        · rename_i start goal _ hgoal
          split
          · rename_i hmove
            obtain ⟨ns, hns, hlocate⟩ := locate_of_renameTarget_eq_ok hgoal
            have hwalk := (Tree.locate_eq_ok_iff.mp hlocate).2
            have hseated : tree.Seated goal :=
              hmade.seated_of_walk (fun hnil => absurd hnil hns) hwalk
            exact ⟨hmade.move hseated (not_isPrefix_of_canMove hmove) fun c =>
              get?_below_eq_none_of_canMove hmade hmove, h.proper⟩
          · exact ⟨hmade, h.proper⟩

theorem mkdirs (h : s.IsSound) (p : Path) : (s.mkdirs p).2.IsSound := by
  have hmade := h.isTree_makeDirectories ((names p).filter (· ≠ [])).reverse
  rw [Local.mkdirs]
  rcases hmake : s.tree.makeDirectories s.root ((names p).filter (· ≠ [])).reverse
    with ⟨cause | _, tree⟩
  all_goals rw [hmake] at hmade
  · simp only [obstruct_snd]
    exact ⟨hmade, h.proper⟩
  · exact ⟨hmade, h.proper⟩

theorem setReplication (h : s.IsSound) (p : Path) (factor : Value) :
    (s.setReplication p factor).2.IsSound := by
  rw [Local.setReplication]
  split
  · exact ⟨h.isTree, h.proper⟩
  · exact h

theorem answer (h : s.IsSound) (request : Request) : (s.answer request).2.IsSound := by
  cases request with
  | create path data replication blockSize => exact h.create path data replication
  | append path data => exact h.append path data
  | read path length => exact (read_snd s path length).symm ▸ h
  | delete path => exact h.delete path
  | rename source target => exact h.rename source target
  | setReplication path factor => exact h.setReplication path factor
  | getReplication path => exact (getReplication_snd s path).symm ▸ h
  | listdir path => exact (listdir_snd s path).symm ▸ h
  | mkdirs path => exact h.mkdirs path
  | isStored path => exact h

end IsSound

theorem isSound_of_ofRoot {root : Place} (htree : tree.IsTree) (hroot : AllProper root)
    (h : ofRoot tree root = .ok s) : s.IsSound := by
  have hext : tree.Extended (fun _ => True) (tree.makeDirectories [] root.reverse).2 :=
    htree.extended_makeDirectories (List.forall_mem_nil _) (fun _ _ => trivial) fun _ _ _ _ _ =>
      trivial
  rw [ofRoot] at h
  split at h
  · rename_i t hmake
    rw [hmake] at hext
    obtain rfl := Except.ok.inj h
    exact ⟨hext.isTree, hroot⟩
  · cases h

/-- Whatever has been asked for, the service stands on a tree. -/
theorem isSound_of_serve {root : Place} (htree : tree.IsTree) (hroot : AllProper root)
    (hmount : ofRoot tree root = .ok s) {requests : List Request}
    {answers : List (Except StoreFault Reply)}
    (hserve : Storage.serve requests s = some (answers, s')) : s'.IsSound := by
  refine Storage.serve_induction IsSound (fun _ => True) ?_ (fun _ _ => trivial) hserve
    (isSound_of_ofRoot htree hroot hmount)
  intro request s answer s' h _ hanswer
  have hsound := h.answer request
  rwa [Option.some.inj hanswer] at hsound

end StorageLoad.Local
