import StorageLoad.Proofs.Host

/-!
What emptying a directory and moving a node with everything under it do to a tree.  Moved to a
place that is not below it, and under which nothing is, a node is found there with all that was
under it (`IsTree.get?_move_onto`), and the tree stays one (`IsTree.move`).
-/

namespace StorageLoad.Host.Tree

variable {t : Tree} {p q source target : Place} {a c : List Name} {node : Node}

theorem mem_entries_filter_iff (h : t.IsTree) {e : Place × Node} :
    e ∈ t.entries.filter (fun e => source.isPrefixOf e.1) ↔ t.get? e.1 = some e.2 ∧
    source <+: e.1 := by
  rw [List.mem_filter, h.sorted.mem_entries_iff, List.isPrefixOf_iff_prefix]

section Clear

theorem get?_clear (t : Tree) (p k : Place) :
    (t.clear p).get? k = if p <+: k ∧ k ≠ p then none else t.get? k := by
  rw [Table.get?, clear, List.find?_filter]
  split
  · rename_i hbelow
    rw [List.find?_eq_none.mpr]
    · rfl
    · intro e _
      simp only [decide_eq_true_eq]
      rintro ⟨hkept, rfl⟩
      rw [Bool.or_eq_true, decide_eq_true_eq, Bool.not_eq_true', ← Bool.not_eq_true,
        List.isPrefixOf_iff_prefix] at hkept
      exact hkept.elim hbelow.2 fun hnot => hnot hbelow.1
  · rename_i hkept
    rw [Table.get?]
    congr 2
    funext e
    by_cases he : e.1 = k
    · subst he
      by_cases hself : e.1 = p
      · simp [hself]
      · have hnot : p.isPrefixOf e.1 = false := by
          rw [← Bool.not_eq_true, List.isPrefixOf_iff_prefix]
          exact fun hpre => hkept ⟨hpre, hself⟩
        simp [hnot]
    · simp [he]

theorem IsTree.clear (h : t.IsTree) (p : Place) : (t.clear p).IsTree := by
  constructor
  · exact List.Pairwise.filter _ h.sorted
  · intro k n hk
    rw [contains_iff, get?_clear] at hk
    split at hk
    · obtain ⟨node, hnode⟩ := hk
      cases hnode
    · rename_i hkept
      rw [get?_clear, if_neg, h.parent k n (contains_iff.mpr hk)]
      rintro ⟨hpre, hne⟩
      refine hkept ⟨hpre.trans (List.prefix_append k [n]), ?_⟩
      rintro rfl
      exact not_append_singleton_isPrefix k n hpre

end Clear

section Move

theorem get?_foldl_insert (f : Place × Node → Place) {es : List (Place × Node)}
    (hinj : es.Pairwise fun d e => f d ≠ f e) (t : Tree) :
    (∀ e ∈ es, (es.foldl (fun t e => t.insert (f e) e.2) t).get? (f e) = some e.2) ∧
      ∀ q, (∀ e ∈ es, q ≠ f e) →
        (es.foldl (fun t e => t.insert (f e) e.2) t).get? q = t.get? q := by
  induction es generalizing t with
  | nil => exact ⟨List.forall_mem_nil _, fun q _ => rfl⟩
  | cons d es ih =>
      obtain ⟨hhead, htail⟩ := List.pairwise_cons.mp hinj
      obtain ⟨hput, hstay⟩ := ih htail (t.insert (f d) d.2)
      rw [List.foldl_cons]
      constructor
      · intro e he
        rcases List.mem_cons.mp he with rfl | he
        · rw [hstay _ hhead, get?_insert, if_pos rfl]
        · exact hput e he
      · intro q hq
        rw [hstay q fun e he => hq e (List.mem_cons_of_mem d he), get?_insert,
          if_neg (hq d List.mem_cons_self)]

theorem isSorted_foldl_insert (f : Place × Node → Place) (es : List (Place × Node)) {t : Tree}
    (h : t.IsSorted) : (es.foldl (fun t e => t.insert (f e) e.2) t).IsSorted := by
  induction es generalizing t with
  | nil => exact h
  | cons e es ih => exact ih (Table.IsSorted.insert h _ _)

/-- Where a node goes when what is under one place is moved to another. -/
def movedTo (source target : Place) (e : Place × Node) : Place :=
  target ++ e.1.drop source.length

theorem movedTo_append (source target c : Place) (node : Node) :
    movedTo source target (source ++ c, node) = target ++ c := by
  rw [movedTo, List.drop_left]

theorem IsTree.pairwise_movedTo (h : t.IsTree) (source target : Place) :
    (t.entries.filter fun e => source.isPrefixOf e.1).Pairwise fun d e =>
      movedTo source target d ≠ movedTo source target e := by
  have hsorted : (t.entries.filter fun e => source.isPrefixOf e.1).Pairwise fun d e =>
      d.1 < e.1 :=
    List.Pairwise.filter _ h.sorted
  refine hsorted.imp_of_mem ?_
  rintro ⟨k, d⟩ ⟨l, e⟩ hd he hlt heq
  obtain ⟨-, ⟨b, rfl⟩⟩ := (mem_entries_filter_iff h).mp hd
  obtain ⟨-, ⟨c, rfl⟩⟩ := (mem_entries_filter_iff h).mp he
  rw [movedTo_append, movedTo_append, List.append_right_inj] at heq
  rw [heq] at hlt
  exact List.lt_irrefl _ hlt

theorem IsTree.get?_move_onto (h : t.IsTree) (target : Place)
    (hnode : t.get? (source ++ c) = some node) :
    (t.move source target).get? (target ++ c) = some node := by
  obtain ⟨hput, -⟩ :=
    get?_foldl_insert (movedTo source target) (h.pairwise_movedTo source target) (t.erase source)
  rw [← movedTo_append source target c node]
  exact hput _ ((mem_entries_filter_iff h).mpr ⟨hnode, List.prefix_append source c⟩)

theorem IsTree.get?_move_of_none (h : t.IsTree)
    (hnone : ∀ c, q = target ++ c → t.get? (source ++ c) = none) :
    (t.move source target).get? q = (t.erase source).get? q := by
  obtain ⟨-, hstay⟩ :=
    get?_foldl_insert (movedTo source target) (h.pairwise_movedTo source target) (t.erase source)
  refine hstay q ?_
  rintro ⟨k, node⟩ he
  obtain ⟨hnode, ⟨c, rfl⟩⟩ := (mem_entries_filter_iff h).mp he
  rw [movedTo_append]
  intro heq
  rw [hnone c heq] at hnode
  cases hnode

theorem IsTree.move (h : t.IsTree) (hseated : t.Seated target) (hbelow : ¬ source <+: target)
    (hfree : ∀ c, c ≠ [] → t.get? (target ++ c) = none) : (t.move source target).IsTree := by
  refine ⟨isSorted_foldl_insert (movedTo source target) _ (h.erase source).sorted, ?_⟩
  intro p n hp
  by_cases honto : ∃ c node, p ++ [n] = target ++ c ∧ t.get? (source ++ c) = some node
  · obtain ⟨c, node, heq, hnode⟩ := honto
    cases c using List.reverseRecOn with
    | nil =>
        rw [List.append_nil] at heq
        rw [h.get?_move_of_none, get?_erase, if_neg, hseated p n heq.symm]
        · exact fun hpre => hbelow (hpre.trans (heq ▸ List.prefix_append p [n]))
        · rintro c rfl
          have hpre : target ++ c ++ [n] <+: target ++ c := by
            rw [heq]
            exact List.prefix_append target c
          exact absurd hpre (not_append_singleton_isPrefix _ n)
    | append_singleton c last =>
        rw [← List.append_assoc] at heq hnode
        obtain ⟨rfl, -⟩ := List.append_inj' heq rfl
        exact h.get?_move_onto target (h.parent _ _ (contains_of_get? hnode))
  · have hnone : ∀ c, p ++ [n] = target ++ c → t.get? (source ++ c) = none := by
      intro c heq
      by_contra hne
      obtain ⟨node, hnode⟩ := Option.ne_none_iff_exists'.mp hne
      exact honto ⟨c, node, heq, hnode⟩
    rw [contains_iff, h.get?_move_of_none hnone, ← contains_iff] at hp
    have hdir := (h.erase source).parent p n hp
    rw [h.get?_move_of_none, hdir]
    rintro c rfl
    rw [contains_iff, get?_erase] at hp
    obtain ⟨node, hnode⟩ := hp
    split at hnode
    · cases hnode
    · rw [List.append_assoc, hfree _ (by simp)] at hnode
      cases hnode

end Move

end StorageLoad.Host.Tree
