import Mathlib.Algebra.BigOperators.Group.List.Basic
import StorageLoad.Proofs.Merging

/-!
The order in which statistics arrive.  Whole numbers add up to the same in every order, but texts
are joined as they come: two orders of the same pairs lead to the same outputs just where they
join the same texts (`reduce_eq_iff_of_perm`).
-/

namespace StorageLoad

namespace Figure

/-- The text that a figure is. -/
def text? : Figure → Option String
  | text s => some s
  | _ => none

variable {fs gs : List Figure} {f g : Figure}

theorem Combines.form_eq_of_perm (h : Combines fs f) (h' : Combines gs g) (hperm : fs.Perm gs) :
    g.form = f.form := by
  obtain ⟨first, rest, rfl⟩ := List.exists_cons_of_ne_nil h.ne_nil
  have hfirst : first ∈ gs := hperm.mem_iff.mp List.mem_cons_self
  rw [← h.form_eq first List.mem_cons_self, h'.form_eq first hfirst]

/-- Whole numbers come to the same in every order. -/
theorem Combines.eq_of_perm (h : Combines fs f) (h' : Combines gs g) (hperm : fs.Perm gs)
    (hdouble : f.form ≠ .double) (htext : f.form ≠ .text) : f = g := by
  have hform := h.form_eq_of_perm h' hperm
  cases h with
  | long ns hne =>
      cases h' with
      | long ns' hne' =>
          have hsame := (List.map_perm_map_iff fun _ _ => Figure.long.inj).mp hperm
          rw [hsame.sum_eq]
      | _ => cases hform
  | integer ns hne =>
      cases h' with
      | integer ns' hne' =>
          have hsame := (List.map_perm_map_iff fun _ _ => Figure.integer.inj).mp hperm
          rw [hsame.sum_eq]
      | _ => cases hform
  | double x xs => exact absurd rfl hdouble
  | text ss hne => exact absurd rfl htext

theorem Combines.eq_text (h : Combines fs f) (htext : f.form = .text) :
    f = .text (";".intercalate (fs.filterMap text?)) := by
  cases h with
  | text ss hne => simp [List.filterMap_map, Function.comp_def, text?]
  | _ => cases htext

theorem Combines.filterMap_text?_eq_nil (h : Combines fs f) (htext : f.form ≠ .text) :
    fs.filterMap text? = [] := by
  rw [List.filterMap_eq_nil_iff]
  intro g hg
  have hform := h.form_eq g hg
  cases g with
  | text s => exact absurd hform.symm htext
  | _ => rfl

end Figure

namespace Record

theorem IsOf.eq_of_figure {key : String} {r s : Record} (h : r.IsOf key) (h' : s.IsOf key)
    (hfigure : r.figure = s.figure) : r = s := by
  have hsame : (r.figure.form, r.opType, r.measurement) =
      (s.figure.form, s.opType, s.measurement) :=
    Except.ok.inj (Eq.trans (Eq.symm h) h')
  obtain ⟨-, hnames⟩ := Prod.mk.inj hsame
  obtain ⟨hopType, hmeasurement⟩ := Prod.mk.inj hnames
  cases r
  cases s
  simp_all

end Record

namespace Reducer

open Record Figure

variable {m m' : Reducer} {r r' : Record} {records rest : List Record}
  {pairs others : List (String × Value)}

/-- The texts under a key, joined in the order in which they come. -/
def textUnder (key : String) (records : List Record) : String :=
  ";".intercalate ((figuresOf key records).filterMap text?)

theorem figuresOf_perm (h : records.Perm rest) (key : String) :
    (figuresOf key records).Perm (figuresOf key rest) :=
  (h.filter _).map _

theorem IsMergeOf.eq_of_figures (h : m.IsMergeOf records) (h' : m'.IsMergeOf rest)
    (hkeys : ∀ key, key ∈ records.map Record.key ↔ key ∈ rest.map Record.key)
    (hfigures : ∀ key f g, Combines (figuresOf key records) f →
      Combines (figuresOf key rest) g → f = g) :
    m = m' := by
  apply h.sorted.ext h'.sorted
  intro key
  have hsome : (m.get? key).isSome ↔ (m'.get? key).isSome := by
    rw [h.isSome_get?_iff, h'.isSome_get?_iff, hkeys]
  cases hget : m.get? key with
  | none =>
      rw [hget] at hsome
      exact (Option.not_isSome_iff_eq_none.mp (by simp [← hsome])).symm
  | some r =>
      obtain ⟨r', hget'⟩ := Option.isSome_iff_exists.mp (hsome.mp (by rw [hget]; rfl))
      obtain ⟨hr, hcombines⟩ := h.combines key r hget
      obtain ⟨hr', hcombines'⟩ := h'.combines key r' hget'
      rw [hget', hr.eq_of_figure hr' (hfigures key _ _ hcombines hcombines')]

theorem form_ne_of_combines {form : Form} (hforms : ∀ s ∈ records, s.figure.form ≠ form)
    {key : String} {f : Figure} (h : Combines (figuresOf key records) f) : f.form ≠ form := by
  obtain ⟨first, hfirst⟩ := List.exists_mem_of_ne_nil _ h.ne_nil
  obtain ⟨s, hs, rfl⟩ := List.mem_map.mp hfirst
  rw [← h.form_eq s.figure hfirst]
  exact hforms s (List.mem_of_mem_filter hs)

/-- What two orders make of one statistic: the same, but for the order in which texts are
joined. -/
structure IsReordered (records rest : List Record) (r r' : Record) : Prop where
  key_eq : r'.key = r.key
  eq_of_form : r.figure.form ≠ .text → r' = r
  figures_eq : r.figure.form = .text →
    r.figure = .text (textUnder r.key records) ∧ r'.figure = .text (textUnder r.key rest)

theorem IsMergeOf.keys_eq (h : m.IsMergeOf records) (h' : m'.IsMergeOf rest)
    (hperm : records.Perm rest) :
    m.outputs.map Record.key = m'.outputs.map Record.key := by
  apply List.map_injective_iff.mpr Text.codes_injective
  refine Table.eq_of_ascending (List.pairwise_map.mpr h.ascending)
    (List.pairwise_map.mpr h'.ascending) ?_
  intro codes
  simp only [List.mem_map (f := Text.codes), h.mem_keys_iff, h'.mem_keys_iff,
    (hperm.map _).mem_iff]

theorem IsMergeOf.isReordered (h : m.IsMergeOf records) (h' : m'.IsMergeOf rest)
    (hperm : records.Perm rest) (hforms : ∀ s ∈ records, s.figure.form ≠ .double) {key : String}
    (hget : m.get? key = some r) (hget' : m'.get? key = some r') :
    IsReordered records rest r r' := by
  obtain ⟨hr, hcombines⟩ := h.combines key r hget
  obtain ⟨hr', hcombines'⟩ := h'.combines key r' hget'
  have hfigures := figuresOf_perm hperm key
  have hdouble := form_ne_of_combines hforms hcombines
  obtain rfl := hr.key_eq
  refine ⟨hr'.key_eq, fun htext => ?_, fun htext => ?_⟩
  · exact hr'.eq_of_figure hr (hcombines.eq_of_perm hcombines' hfigures hdouble htext).symm
  · refine ⟨hcombines.eq_text htext, hcombines'.eq_text ?_⟩
    rw [hcombines.form_eq_of_perm hcombines' hfigures, htext]

theorem exists_reads_of_perm (hperm : pairs.Perm others)
    (hreads : List.Forall₂ Reads pairs records) :
    ∃ rest, List.Forall₂ Reads others rest ∧ records.Perm rest := by
  have hcomp : Relation.Comp (List.Forall₂ Reads) List.Perm others records :=
    List.perm_comp_forall₂ hperm.symm hreads
  obtain ⟨rest, hrest, hsame⟩ := hcomp
  exact ⟨rest, hrest, hsame.symm⟩

theorem reads_unique (h : List.Forall₂ Reads pairs records) (h' : List.Forall₂ Reads pairs rest) :
    records = rest := by
  induction h generalizing rest with
  | nil =>
      cases h'
      rfl
  | cons hread hreads ih =>
      cases h' with
      | cons hread' hreads' =>
          rw [Except.ok.inj (Eq.trans (Eq.symm hread) hread'), ih hreads']

theorem exists_reduce (hreads : List.Forall₂ Reads pairs records) :
    ∃ m : Reducer, reduce pairs = .ok m.outputs ∧ m.IsMergeOf records := by
  obtain ⟨m, haddAll, hm⟩ := isMergeOf_empty.exists_addAll hreads
  refine ⟨m, ?_, by rwa [List.nil_append] at hm⟩
  rw [reduce, haddAll]

theorem IsMergeOf.forall₂_outputs (h : m.IsMergeOf records) (h' : m'.IsMergeOf rest)
    (hperm : records.Perm rest) (hforms : ∀ s ∈ records, s.figure.form ≠ .double) :
    List.Forall₂ (IsReordered records rest) m.outputs m'.outputs := by
  have hkeys : List.Forall₂ (fun r r' => r.key = r'.key) m.outputs m'.outputs := by
    have hsame := h.keys_eq h' hperm
    rwa [← List.forall₂_eq_eq_eq, List.forall₂_map_left_iff, List.forall₂_map_right_iff] at hsame
  rw [List.forall₂_iff_zip] at hkeys ⊢
  refine ⟨hkeys.1, fun {r r'} hmem => ?_⟩
  obtain ⟨hr, hr'⟩ := List.of_mem_zip hmem
  refine h.isReordered h' hperm hforms (h.mem_outputs_iff.mp hr) ?_
  rw [hkeys.2 hmem]
  exact h'.mem_outputs_iff.mp hr'

theorem IsMergeOf.textUnder_eq (h : m.IsMergeOf records) (key : String) :
    textUnder key records =
      match (m.get? key).bind (·.figure.text?) with
      | some s => s
      | none => "" := by
  cases hget : m.get? key with
  | none =>
      have hnone : figuresOf key records = [] := by
        rw [figuresOf_eq_nil_iff]
        rintro s hs rfl
        have hsome := h.complete s hs
        rw [hget] at hsome
        cases hsome
      rw [textUnder, hnone]
      rfl
  | some r =>
      obtain ⟨-, hcombines⟩ := h.combines key r hget
      obtain ⟨opType, measurement, figure⟩ := r
      cases figure with
      | text s => exact (Figure.text.inj (hcombines.eq_text rfl)).symm
      | _ =>
          rw [textUnder, hcombines.filterMap_text?_eq_nil (by simp [Figure.form])]
          rfl

theorem IsMergeOf.get?_eq_some_iff (h : m.IsMergeOf records) {key : String} :
    m.get? key = some r ↔ r ∈ m.outputs ∧ r.key = key := by
  rw [h.mem_outputs_iff]
  constructor
  · intro hget
    have hkey := (h.combines key r hget).1.key_eq
    exact ⟨by rwa [hkey], hkey⟩
  · rintro ⟨hget, rfl⟩
    exact hget

theorem IsMergeOf.textUnder_congr (h : m.IsMergeOf records) (h' : m'.IsMergeOf rest)
    (heq : m.outputs = m'.outputs) (key : String) :
    textUnder key records = textUnder key rest := by
  have hget : m.get? key = m'.get? key := by
    apply Option.ext
    intro r
    rw [h.get?_eq_some_iff, h'.get?_eq_some_iff, heq]
  rw [h.textUnder_eq, h'.textUnder_eq, hget]

/-- Pairs that are read as whole numbers and texts can be merged in every order.  The outputs have
the same keys in the same order, and the same whole numbers; a text is joined in the order in
which its parts come.  So the outputs are the same just where the texts under each key are joined
to the same. -/
theorem reduce_eq_iff_of_perm (hreads : List.Forall₂ Reads pairs records)
    (hforms : ∀ r ∈ records, r.figure.form ≠ .double) (hperm : pairs.Perm others) :
    ∃ rest outputs outputs', List.Forall₂ Reads others rest ∧ records.Perm rest ∧
      reduce pairs = .ok outputs ∧ reduce others = .ok outputs' ∧
      List.Forall₂ (IsReordered records rest) outputs outputs' ∧
      (outputs = outputs' ↔ ∀ key, textUnder key records = textUnder key rest) := by
  obtain ⟨rest, hrest, hsame⟩ := exists_reads_of_perm hperm hreads
  obtain ⟨m, hreduce, hm⟩ := exists_reduce hreads
  obtain ⟨m', hreduce', hm'⟩ := exists_reduce hrest
  refine ⟨rest, m.outputs, m'.outputs, hrest, hsame, hreduce, hreduce',
    hm.forall₂_outputs hm' hsame hforms, hm.textUnder_congr hm', fun htexts => ?_⟩
  have hfigures : ∀ key f g, Combines (figuresOf key records) f →
      Combines (figuresOf key rest) g → f = g := by
    intro key f g hf hg
    have hperm := figuresOf_perm hsame key
    by_cases htext : f.form = .text
    · have htext' : g.form = .text := (hf.form_eq_of_perm hg hperm).trans htext
      rw [hf.eq_text htext, hg.eq_text htext']
      exact congrArg Figure.text (htexts key)
    · exact hf.eq_of_perm hg hperm (form_ne_of_combines hforms hf) htext
  rw [hm.eq_of_figures hm' (fun key => (hsame.map _).mem_iff) hfigures]

/-- What two workers send: a host and a count each. -/
def hosts : List (String × Value) :=
  [("s:x*host", .text "a"), ("l:x*n", .text "1"), ("s:x*host", .text "b"), ("l:x*n", .text "2")]

def hostRecords : List Record :=
  [⟨"x", "host", .text "a"⟩, .long "x" "n" 1, ⟨"x", "host", .text "b"⟩, .long "x" "n" 2]

theorem reads_hosts : List.Forall₂ Reads hosts hostRecords ∧
    List.Forall₂ Reads (hosts.drop 2 ++ hosts.take 2)
      (hostRecords.drop 2 ++ hostRecords.take 2) := by
  have hfirst : List.Forall₂ Reads (hosts.take 2) (hostRecords.take 2) := by
    refine .cons ?_ (.cons ?_ .nil)
    all_goals exact Outcome.eq_ok_of_toOption (by decide +kernel)
  have hsecond : List.Forall₂ Reads (hosts.drop 2) (hostRecords.drop 2) := by
    refine .cons ?_ (.cons ?_ .nil)
    all_goals exact Outcome.eq_ok_of_toOption (by decide +kernel)
  exact ⟨List.rel_append hfirst hsecond, List.rel_append hsecond hfirst⟩

theorem hosts_perm : hosts.Perm (hosts.drop 2 ++ hosts.take 2) := by
  have hsplit : hosts = hosts.take 2 ++ hosts.drop 2 := rfl
  nth_rewrite 1 [hsplit]
  exact List.perm_append_comm

theorem textUnder_hosts : textUnder "s:x*host" hostRecords = "a;b" ∧
    textUnder "s:x*host" (hostRecords.drop 2 ++ hostRecords.take 2) = "b;a" := by
  decide +kernel

/-- Whichever worker comes first, the count is the same, and its host is first. -/
theorem reduce_eq_iff_hosts : ∃ outputs outputs', reduce hosts = .ok outputs ∧
    reduce (hosts.drop 2 ++ hosts.take 2) = .ok outputs' ∧
    outputs.map Record.key = outputs'.map Record.key ∧ outputs ≠ outputs' := by
  obtain ⟨hreads, hreads'⟩ := reads_hosts
  obtain ⟨rest, outputs, outputs', hrest, -, hreduce, hreduce', houtputs, hiff⟩ :=
    reduce_eq_iff_of_perm hreads (by decide) hosts_perm
  obtain rfl := reads_unique hrest hreads'
  refine ⟨outputs, outputs', hreduce, hreduce', ?_, ?_⟩
  · rw [← List.forall₂_eq_eq_eq, List.forall₂_map_left_iff, List.forall₂_map_right_iff]
    exact houtputs.imp fun r r' hr => hr.key_eq.symm
  · intro heq
    have htext := hiff.mp heq "s:x*host"
    rw [textUnder_hosts.1, textUnder_hosts.2] at htext
    exact absurd htext (by decide)

/-- So the order of the pairs shows in the outputs. -/
theorem reduce_perm_ne : ¬ ∀ (pairs others : List (String × Value)) (records : List Record),
    List.Forall₂ Reads pairs records → (∀ r ∈ records, r.figure.form ≠ .double) →
    pairs.Perm others →
      reduce pairs = reduce others := by
  intro h
  obtain ⟨hreads, hreads'⟩ := reads_hosts
  obtain ⟨m, hreduce, hm⟩ := exists_reduce hreads
  obtain ⟨m', hreduce', hm'⟩ := exists_reduce hreads'
  have heq := h hosts _ hostRecords hreads (by decide) hosts_perm
  rw [hreduce, hreduce'] at heq
  have htext := hm.textUnder_congr hm' (Except.ok.inj heq) "s:x*host"
  rw [textUnder_hosts.1, textUnder_hosts.2] at htext
  exact absurd htext (by decide)

end Reducer

end StorageLoad
