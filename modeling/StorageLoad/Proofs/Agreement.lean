import Mathlib.Data.Set.Defs
import StorageLoad.Proofs.History
import StorageLoad.Proofs.Local
import StorageLoad.Proofs.Memory.Reachable

/-!
The service in memory and the one on a host's file tree answer alike, as long as no file is used
as a directory and the host tells every name as it was given.  A relation between the two says,
name by name, what is under a path in the one and in the other (`Agrees`); every call that a
layout of files and directories allows is answered alike and keeps it (`Agrees.exists_answer`),
and so is every history of such calls (`exists_serve_alike`).
-/

namespace StorageLoad

open StorageLoad.Path

/-- Which paths hold files and which directories: none that holds a file lies above another.  A
host tells their names as they are given. -/
structure Layout (root : Host.Place) where
  files : Set Path
  directories : Set Path
  isCanonical : ∀ p ∈ files ∪ directories, p.IsCanonical
  accepts : ∀ p ∈ files ∪ directories, Host.Accepts root (Local.names p)
  slash_not_mem : ['/'] ∉ files
  disjoint : ∀ p ∈ files, p ∉ directories
  apart : ∀ p ∈ files, ∀ q ∈ files ∪ directories, ¬ p ++ ['/'] <+: q

/-- Nothing, for all the bytes, or a number of bytes that a host has room for. -/
def Request.IsLength (length : Value) : Prop :=
  length = .null ∨ ∃ n, length.whole? = some n ∧ 0 ≤ n ∧ n < Local.roomLimit

namespace Layout

variable {root : Host.Place} (l : Layout root) {a b ns : List Name} {p : Path}

/-- The calls that use files as files and directories as directories; whether something is stored
may be asked of any normalised path whose names a host tells as they are given. -/
def Allows : Request → Prop
  | .create path _ _ _ => path ∈ l.files
  | .append path _ => path ∈ l.files
  | .read path length => path ∈ l.files ∧ Request.IsLength length
  | .delete path => path ∈ l.files
  | .rename source target => source ∈ l.files ∧ target ∈ l.files
  | .setReplication path _ => path ∈ l.files
  | .getReplication path => path ∈ l.files
  | .listdir path => path ∈ l.directories
  | .mkdirs path => path ∈ l.directories
  | .isStored path => path.IsCanonical

variable {l}

theorem exists_names_of_file (hp : p ∈ l.files) : ∃ ns name, Host.AllCanonical (ns ++ [name]) ∧
    p = ofNames (ns ++ [name]) ∧ Host.Accepts root (ns ++ [name]) := by
  obtain ⟨names, hnames, rfl⟩ := l.isCanonical p (Or.inl hp)
  have haccepts := l.accepts _ (Or.inl hp)
  cases names using List.reverseRecOn with
  | nil => exact absurd hp l.slash_not_mem
  | append_singleton ns name =>
      rw [(Local.leadsTo_ofNames hnames).names_eq_of_ne_nil (by simp)] at haccepts
      exact ⟨ns, name, hnames, rfl, haccepts⟩

theorem not_mem_files_of_isPrefix (hb : AllProper b) (hmem : ofNames b ∈ l.files ∪ l.directories)
    (hab : a <+: b) (hne : a ≠ b) : ofNames a ∉ l.files := by
  intro ha
  have hanil : a ≠ [] := by
    rintro rfl
    exact l.slash_not_mem ha
  refine l.apart _ ha _ hmem ?_
  rw [ofNames_append_slash_isPrefix_iff (hb.of_isPrefix hab) hb hanil]
  exact ⟨hab, hne⟩

theorem not_mem_files_above {name : Name} (hns : AllProper (ns ++ [name]))
    (hmem : ofNames (ns ++ [name]) ∈ l.files ∪ l.directories) :
    ∀ a, a <+: ns → ofNames a ∉ l.files := by
  intro a ha
  refine not_mem_files_of_isPrefix hns hmem (ha.trans (List.prefix_append ns [name])) ?_
  rintro rfl
  exact not_append_singleton_isPrefix ns name ha

/-- What may be under names in the one service and in the other, with the remembered factor. -/
inductive Holds (l : Layout root) (ns : List Name) :
    Option Memory.Entry → Option Host.Node → Option Value → Prop
  | nothing (factor : Option Value) : Holds l ns none none factor
  | directory (e : Memory.Entry) (factor : Option Value) (hdir : e.isDirectory = true)
      (hfiles : ofNames ns ∉ l.files) (haccepts : Host.Accepts root (Local.names (ofNames ns))) :
      Holds l ns (some e) (some .directory) factor
  | file (e : Memory.Entry) (hfile : e.isDirectory = false) (hpolls : e.pendingPolls = 0)
      (hfiles : ofNames ns ∈ l.files) (haccepts : Host.Accepts root (Local.names (ofNames ns))) :
      Holds l ns (some e) (some (.file e.data)) (some e.replication)

variable {entry : Option Memory.Entry} {node : Option Host.Node} {factor : Option Value}

theorem Holds.nothing_or_file (h : l.Holds ns entry node factor) (hmem : ofNames ns ∈ l.files) :
    (entry = none ∧ node = none) ∨ ∃ e, entry = some e ∧ e.isDirectory = false ∧
      e.pendingPolls = 0 ∧ node = some (.file e.data) ∧ factor = some e.replication := by
  cases h with
  | nothing => exact Or.inl ⟨rfl, rfl⟩
  | directory e factor hdir hfiles => exact absurd hmem hfiles
  | file e hfile hpolls => exact Or.inr ⟨e, rfl, hfile, hpolls, rfl, rfl⟩

theorem Holds.of_file {e : Memory.Entry} (h : l.Holds ns (some e) node factor)
    (hmem : ofNames ns ∈ l.files) : e.isDirectory = false ∧ e.pendingPolls = 0 ∧
      node = some (.file e.data) ∧ factor = some e.replication := by
  cases h with
  | directory e factor hdir hfiles => exact absurd hmem hfiles
  | file e hfile hpolls => exact ⟨hfile, hpolls, rfl, rfl⟩

theorem Holds.nothing_or_directory (h : l.Holds ns entry node factor)
    (hmem : ofNames ns ∉ l.files) : (entry = none ∧ node = none) ∨
      ∃ e, entry = some e ∧ e.isDirectory = true ∧ node = some .directory := by
  cases h with
  | nothing => exact Or.inl ⟨rfl, rfl⟩
  | directory e factor hdir => exact Or.inr ⟨e, rfl, hdir, rfl⟩
  | file e hfile hpolls hfiles => exact absurd hfiles hmem

theorem Holds.eq_directory {e : Memory.Entry} (h : l.Holds ns (some e) node factor)
    (hdir : e.isDirectory) : node = some .directory := by
  cases h with
  | directory => rfl
  | file e hfile =>
      rw [hfile] at hdir
      cases hdir

theorem Holds.isSome_eq (h : l.Holds ns entry node factor) : node.isSome = entry.isSome := by
  cases h <;> rfl

theorem Holds.accepts (h : l.Holds ns entry node factor) (hsome : entry.isSome) :
    Host.Accepts root (Local.names (ofNames ns)) := by
  cases h with
  | nothing => cases hsome
  | directory e factor hdir hfiles haccepts => exact haccepts
  | file e hfile hpolls hfiles haccepts => exact haccepts

end Layout

/-- The two services hold the same, in the places that a layout has for it. -/
structure Agrees {root : Host.Place} (l : Layout root) (m : Memory) (s : Local) : Prop where
  root_eq : s.root = root
  lag : m.lag = 0
  orderly : m.IsOrderly
  mounted : s.IsMounted
  proper : ∀ ns, s.tree.contains (s.root ++ ns) → AllProper ns
  holds : ∀ ns, AllProper ns →
    l.Holds ns (m.get? (ofNames ns)) (s.tree.get? (s.root ++ ns)) (s.factors.get? (ofNames ns))

namespace Agrees

variable {root : Host.Place} {l : Layout root} {m : Memory} {s : Local} {ns : List Name}
  {name : Name} {p : Path}

theorem accepts (h : Agrees l m s) (hp : p ∈ l.files ∪ l.directories) :
    Host.Accepts s.root (Local.names p) := by
  rw [h.root_eq]
  exact l.accepts p hp

theorem exists_names (h : Agrees l m s) (hp : p ∈ l.files) : ∃ ns name,
    Host.AllCanonical (ns ++ [name]) ∧ p = ofNames (ns ++ [name]) ∧
      Host.Accepts s.root (ns ++ [name]) := by
  rw [h.root_eq]
  exact Layout.exists_names_of_file hp

theorem of_file (h : Agrees l m s) (hns : AllProper ns) (hmem : ofNames ns ∈ l.files)
    {e : Memory.Entry} (he : m.get? (ofNames ns) = some e) : e.isDirectory = false ∧
      e.pendingPolls = 0 ∧ s.tree.get? (s.root ++ ns) = some (.file e.data) ∧
      s.factors.get? (ofNames ns) = some e.replication := by
  have hholds := h.holds ns hns
  rw [he] at hholds
  exact hholds.of_file hmem

theorem contains_eq (h : Agrees l m s) (hns : AllProper ns) :
    s.tree.contains (s.root ++ ns) = m.contains (ofNames ns) :=
  (h.holds ns hns).isSome_eq

theorem accepts_of_contains (h : Agrees l m s) (hns : AllProper ns)
    (hcontains : m.contains (ofNames ns)) : Host.Accepts s.root (Local.names (ofNames ns)) := by
  rw [h.root_eq]
  exact (h.holds ns hns).accepts hcontains

theorem isStored_eq (h : Agrees l m s) (hns : Host.AllCanonical ns) :
    s.isStored (ofNames ns) = m.contains (ofNames ns) := by
  by_cases hcontains : m.contains (ofNames ns)
  · rw [Local.isStored, h.mounted.find?_eq (Local.leadsTo_ofNames hns)
      (h.accepts_of_contains hns.proper hcontains)]
    exact h.contains_eq hns.proper
  · have hnone : s.tree.get? (s.root ++ ns) = none := by
      rw [← h.contains_eq hns.proper, Host.Tree.contains_iff, not_exists] at hcontains
      exact Option.eq_none_iff_forall_ne_some.mpr hcontains
    rw [Bool.not_eq_true] at hcontains
    rw [hcontains, Local.isStored, Local.find?_eq_none (Local.leadsTo_ofNames hns) hnone]
    rfl

section Change

theorem isOpen (h : Agrees l m s) (hns : AllProper ns)
    (hfiles : ∀ a, a <+: ns → ofNames a ∉ l.files) : m.IsOpen ns ∧
      ∀ a, a <+: ns → ∀ data, s.tree.get? (s.root ++ a) ≠ some (.file data) := by
  have hcases : ∀ a, a <+: ns → _ := fun a ha =>
    (h.holds a (hns.of_isPrefix ha)).nothing_or_directory (hfiles a ha)
  constructor
  · intro a ha e he
    rcases hcases a ha with ⟨hm, -⟩ | ⟨d, hm, hdir, -⟩
    · rw [hm] at he
      cases he
    · rw [hm] at he
      exact Option.some.inj he ▸ hdir
  · intro a ha data hdata
    rcases hcases a ha with ⟨-, hs⟩ | ⟨d, -, -, hs⟩
    · rw [hs] at hdata
      cases hdata
    · rw [hs] at hdata
      cases hdata

theorem isFree (h : Agrees l m s) (hns : AllProper ns) (hmem : ofNames ns ∈ l.files) :
    m.IsFree (ofNames ns) ∧ s.tree.get? (s.root ++ ns) ≠ some .directory := by
  rcases (h.holds ns hns).nothing_or_file hmem with ⟨hm, hs⟩ | ⟨e, hm, hfile, -, hs, -⟩
  · refine ⟨?_, by simp [hs]⟩
    intro e he
    rw [hm] at he
    cases he
  · refine ⟨?_, by simp [hs]⟩
    intro d hd
    rw [hm] at hd
    exact Option.some.inj hd ▸ hfile

theorem grow (h : Agrees l m s) (hns : Host.AllCanonical ns) (haccepts : Host.Accepts s.root ns)
    (hfiles : ∀ a, a <+: ns → ofNames a ∉ l.files) {m' : Memory} (hm' : m.Grown ns m')
    {t : Host.Tree} (ht : s.tree.Grown s.root ns t) : Agrees l m' { s with tree := t } := by
  obtain ⟨hopen, -⟩ := h.isOpen hns.proper hfiles
  constructor
  · exact h.root_eq
  · rw [hm'.lag, h.lag]
  · exact ⟨hm'.sorted h.orderly.1, hm'.isTree h.orderly.2 hns.proper hopen⟩
  · exact h.mounted.grown ht
  · intro b hb
    by_cases hpre : b <+: ns
    · exact hns.proper.of_isPrefix hpre
    · apply h.proper
      rwa [Host.Tree.contains_iff, ht.get?_of_not_isPrefix hpre, ← Host.Tree.contains_iff] at hb
  · intro b hb
    by_cases hpre : b <+: ns
    · obtain ⟨e, he, hdir⟩ := hm'.hasDirectory_of_isPrefix hopen hpre
      rw [he, ht.made b hpre]
      refine .directory e _ hdir (hfiles b hpre) ?_
      rw [← h.root_eq, h.mounted.accepts_names_iff (Local.leadsTo_ofNames (hns.of_isPrefix hpre))]
      exact haccepts.of_isPrefix hpre
    · rw [hm'.get?_of_not_isPrefix hns.proper hb hpre, ht.get?_of_not_isPrefix hpre]
      exact h.holds b hb

theorem write (h : Agrees l m s) (hns : AllProper (ns ++ [name]))
    (hmem : ofNames (ns ++ [name]) ∈ l.files) (hparent : m.HasDirectory (ofNames ns))
    {e : Memory.Entry} (hfile : e.isDirectory = false) (hpolls : e.pendingPolls = 0)
    {t : Host.Tree} (ht : t.IsTree)
    (hget : ∀ place, t.get? place =
      if place = s.root ++ (ns ++ [name]) then some (.file e.data) else s.tree.get? place)
    {factors : Table Path Value}
    (hself : factors.get? (ofNames (ns ++ [name])) = some e.replication)
    (hother : ∀ p, p ≠ ofNames (ns ++ [name]) → factors.get? p = s.factors.get? p) :
    Agrees l (m.put (ofNames (ns ++ [name])) e) { s with tree := t, factors } := by
  have hplace : ∀ b, s.root ++ b = s.root ++ (ns ++ [name]) ↔ b = ns ++ [name] :=
    fun b => List.append_right_inj s.root
  constructor
  · exact h.root_eq
  · exact h.lag
  · exact ⟨h.orderly.1.put _ _, h.orderly.2.put hns hparent (h.isFree hns hmem).1 e⟩
  · refine ⟨ht, ?_, h.mounted.accepts⟩
    rw [hget, if_neg (by simp), h.mounted.root]
  · intro b hb
    rw [Host.Tree.contains_iff, hget] at hb
    rcases eq_or_ne b (ns ++ [name]) with rfl | heq
    · exact hns
    · rw [if_neg ((hplace b).not.mpr heq), ← Host.Tree.contains_iff] at hb
      exact h.proper b hb
  · intro b hb
    rw [Memory.get?_put, hget]
    rcases eq_or_ne b (ns ++ [name]) with rfl | heq
    · rw [if_pos rfl, if_pos rfl, hself]
      exact .file e hfile hpolls hmem (l.accepts _ (Or.inl hmem))
    · have hne : ofNames b ≠ ofNames (ns ++ [name]) := (ofNames_inj hb hns).not.mpr heq
      rw [if_neg hne, if_neg ((hplace b).not.mpr heq), hother _ hne]
      exact h.holds b hb

theorem insert (h : Agrees l m s) (hns : AllProper (ns ++ [name]))
    (hmem : ofNames (ns ++ [name]) ∈ l.files) (hparent : m.HasDirectory (ofNames ns))
    {e : Memory.Entry} (hfile : e.isDirectory = false) (hpolls : e.pendingPolls = 0)
    {factors : Table Path Value}
    (hself : factors.get? (ofNames (ns ++ [name])) = some e.replication)
    (hother : ∀ p, p ≠ ofNames (ns ++ [name]) → factors.get? p = s.factors.get? p) :
    Agrees l (m.put (ofNames (ns ++ [name])) e) { s with
      tree := s.tree.insert (s.root ++ (ns ++ [name])) (.file e.data), factors } := by
  refine h.write hns hmem hparent hfile hpolls ?_ ?_ hself hother
  · obtain ⟨d, hd, hdir⟩ := hparent
    have hholds := h.holds ns (allProper_append_singleton.mp hns).1
    rw [hd] at hholds
    have hfree := (h.isFree hns hmem).2
    rw [← List.append_assoc] at hfree ⊢
    exact h.mounted.isTree.insert (hholds.eq_directory hdir) (Or.inr hfree)
  · exact fun place => Host.Tree.get?_insert s.tree _ place _

theorem remove (h : Agrees l m s) (hns : AllProper ns) (hmem : ofNames ns ∈ l.files)
    {e : Memory.Entry} (he : m.get? (ofNames ns) = some e) {m' : Memory} (hm' : m.Pruned ns m') :
    Agrees l m' { s with
      tree := s.tree.erase (s.root ++ ns), factors := s.factors.erase (ofNames ns) } := by
  have hne : ns ≠ [] := by
    rintro rfl
    exact l.slash_not_mem hmem
  obtain ⟨hfile, -, hnode, -⟩ := h.of_file hns hmem he
  have hget := h.mounted.isTree.get?_erase_of_file hnode
  have hplace : ∀ b, s.root ++ b = s.root ++ ns ↔ b = ns := fun b => List.append_right_inj s.root
  constructor
  · exact h.root_eq
  · rw [hm'.lag, h.lag]
  · exact ⟨hm'.sorted, hm'.isTree h.orderly.2 hne⟩
  · refine ⟨h.mounted.isTree.erase _, ?_, h.mounted.accepts⟩
    rw [hget, if_neg (by simp [hne]), h.mounted.root]
  · intro b hb
    rw [Host.Tree.contains_iff, hget] at hb
    rcases eq_or_ne b ns with rfl | heq
    · exact hns
    · rw [if_neg ((hplace b).not.mpr heq), ← Host.Tree.contains_iff] at hb
      exact h.proper b hb
  · intro b hb
    rw [hm'.get?_of_file h.orderly.2 hns he hfile hb, hget, Table.get?_erase]
    rcases eq_or_ne b ns with rfl | heq
    · rw [if_pos rfl, if_pos rfl]
      exact .nothing _
    · rw [if_neg heq, if_neg ((hplace b).not.mpr heq), if_neg ((ofNames_inj hb hns).not.mpr heq)]
      exact h.holds b hb

theorem of_get?_eq (h : Agrees l m s) {m' : Memory} (hlag : m'.lag = m.lag)
    (horderly : m'.IsOrderly)
    (hget : ∀ b, AllProper b → m'.get? (ofNames b) = m.get? (ofNames b)) : Agrees l m' s := by
  refine ⟨h.root_eq, hlag.trans h.lag, horderly, h.mounted, h.proper, ?_⟩
  intro b hb
  rw [hget b hb]
  exact h.holds b hb

theorem move (h : Agrees l m s) {a : List Name} (ha : AllProper a) (hsource : ofNames a ∈ l.files)
    (hns : Host.AllCanonical (ns ++ [name])) (htarget : ofNames (ns ++ [name]) ∈ l.files)
    (haccepts : Host.Accepts s.root ns) {e : Memory.Entry} (he : m.get? (ofNames a) = some e)
    (hfree : m.get? (ofNames (ns ++ [name])) = none) (hbelow : ¬ a <+: ns ++ [name])
    {grown m' : Memory} (hgrown : m.Grown ns grown) (hm' : m.Moved grown a (ns ++ [name]) m')
    {t : Host.Tree} (ht : s.tree.Grown s.root ns t) :
    Agrees l m' { s with
      tree := (t.erase (s.root ++ a)).insert (s.root ++ (ns ++ [name])) (.file e.data)
      factors := Local.carryFactor s.factors (ofNames a) (ofNames (ns ++ [name])) } := by
  have hup := (Host.allCanonical_append_singleton.mp hns).1
  have hfiles := Layout.not_mem_files_above hns.proper (Or.inl htarget)
  obtain ⟨hopen, -⟩ := h.isOpen hup.proper hfiles
  obtain ⟨hfile, hpolls, -, hfactor⟩ := h.of_file ha hsource he
  -- The move in memory comes to the same as removing the file and writing it to the new place.
  have hg := h.grow hup haccepts hfiles hgrown ht
  have he' := hgrown.kept _ e he
  obtain ⟨rest, -, hrest⟩ :=
    hg.orderly.2.delete hg.orderly.1 ha (Memory.contains_iff.mpr ⟨e, he'⟩)
  have hget := fun {b} => hrest.get?_of_file (b := b) hg.orderly.2 ha he' hfile
  have hparent : rest.HasDirectory (ofNames ns) := by
    obtain ⟨d, hd, hdir⟩ := hgrown.hasDirectory_of_isPrefix hopen List.prefix_rfl
    refine ⟨d, ?_, hdir⟩
    rw [hget hup.proper, if_neg, hd]
    rintro rfl
    exact hbelow (List.prefix_append _ _)
  have hself : (Local.carryFactor s.factors (ofNames a) (ofNames (ns ++ [name]))).get?
      (ofNames (ns ++ [name])) = some e.replication := by
    rw [Local.carryFactor, hfactor, Table.get?_insert, if_pos rfl]
  have hother : ∀ q, q ≠ ofNames (ns ++ [name]) →
      (Local.carryFactor s.factors (ofNames a) (ofNames (ns ++ [name]))).get? q =
        (s.factors.erase (ofNames a)).get? q := by
    intro q hq
    rw [Local.carryFactor, hfactor, Table.get?_insert, if_neg hq]
  have hwritten :=
    (hg.remove ha hsource he' hrest).insert hns.proper htarget hparent hfile hpolls hself hother
  refine hwritten.of_get?_eq ?_ ?_ ?_
  · rw [hm'.lag, Memory.lag_put, hrest.lag, hgrown.lag]
  · refine ⟨hm'.sorted, hm'.isTree h.orderly.2 hgrown hopen ha ?_ hns.proper hbelow⟩
    rintro rfl
    exact l.slash_not_mem hsource
  · intro b hb
    rw [hm'.get?_of_file h.orderly.2 hgrown ha hns.proper he hfile hfree hbelow hb,
      Memory.get?_put, hget hb]
    simp only [ofNames_inj hb hns.proper]

end Change

theorem namesBelow_eq (h : Agrees l m s) (hns : AllProper ns) :
    m.namesBelow (ofNames ns) = s.tree.namesBelow (s.root ++ ns) := by
  refine Table.eq_of_ascending (Memory.namesBelow_ascending h.orderly.1 _)
    (h.mounted.isTree.namesBelow_ascending _) ?_
  intro name
  rw [h.orderly.2.mem_namesBelow_iff h.orderly.1 hns, h.mounted.isTree.mem_namesBelow_iff,
    List.append_assoc]
  constructor
  · rintro ⟨hname, hcontains⟩
    rwa [h.contains_eq (allProper_append_singleton.mpr ⟨hns, hname⟩)]
  · intro hcontains
    have hall := h.proper _ hcontains
    rw [h.contains_eq hall] at hcontains
    exact ⟨(allProper_append_singleton.mp hall).2, hcontains⟩

section Answer

/-- Both services answer a call, they answer it alike, and they agree afterwards. -/
def AnswersAlike (l : Layout root) (request : Request) (m : Memory) (s : Local) : Prop :=
  ∃ answer m' s', Storage.answer request m = some (answer, m') ∧
    Storage.answer request s = some (answer, s') ∧ Agrees l m' s'

variable (data : Bytes) (length factor replication blockSize : Value)

theorem answer_isStored (h : Agrees l m s) (hp : p.IsCanonical) :
    AnswersAlike l (.isStored p) m s := by
  obtain ⟨ns, hns, rfl⟩ := hp
  refine ⟨.ok (.value (.bool (m.contains (ofNames ns)))), m, s, rfl, ?_, h⟩
  exact congrArg (fun b => some (Except.ok (Reply.value (.bool b)), s)) (h.isStored_eq hns)

theorem answer_mkdirs (h : Agrees l m s) (hp : p ∈ l.directories) :
    AnswersAlike l (.mkdirs p) m s := by
  obtain ⟨ns, hns, rfl⟩ := l.isCanonical p (Or.inr hp)
  have haccepts :=
    (h.mounted.accepts_names_iff (Local.leadsTo_ofNames hns)).mp (h.accepts (Or.inr hp))
  have hfiles : ∀ a, a <+: ns → ofNames a ∉ l.files := by
    intro a ha
    rcases eq_or_ne a ns with rfl | heq
    · exact fun hmem => l.disjoint _ hmem hp
    · exact Layout.not_mem_files_of_isPrefix hns.proper (Or.inr hp) ha heq
  obtain ⟨hopen, hopen'⟩ := h.isOpen hns.proper hfiles
  obtain ⟨m', hm', hmkdirs⟩ := h.orderly.2.mkdirs_of_isOpen hns.proper hopen
  obtain ⟨t, ht, hmkdirs'⟩ := h.mounted.mkdirs_of_open (Local.leadsTo_ofNames hns) haccepts hopen'
  exact ⟨_, _, _, hmkdirs, congrArg some hmkdirs', h.grow hns haccepts hfiles hm' ht⟩

theorem create (h : Agrees l m s) (hp : p ∈ l.files) :
    ∃ m' s', m.create p data replication blockSize = some (.ok (.int data.length), m') ∧
      s.create p data replication = (.ok (.int data.length), s') ∧ Agrees l m' s' ∧
      m'.get? p = some (.file data replication blockSize) := by
  obtain ⟨ns, name, hns, rfl, haccepts⟩ := h.exists_names hp
  have hup := (Host.allCanonical_append_singleton.mp hns).1
  have hfiles := Layout.not_mem_files_above hns.proper (Or.inl hp)
  obtain ⟨hopen, hopen'⟩ := h.isOpen hup.proper hfiles
  obtain ⟨hfree, hfree'⟩ := h.isFree hns.proper hp
  obtain ⟨m', hm', hcreate⟩ :=
    h.orderly.2.create_of_isOpen hns.proper hopen hfree data replication blockSize
  obtain ⟨t, ht, hcreate'⟩ :=
    h.mounted.create_of_open (Local.leadsTo_ofNames hns) haccepts hopen' hfree' data replication
  refine ⟨_, _, hcreate, hcreate', ?_, ?_⟩
  · have hgrown := h.grow hup (haccepts.of_isPrefix (List.prefix_append ns [name])) hfiles hm' ht
    have hparent := hm'.hasDirectory_of_isPrefix hopen List.prefix_rfl
    refine hgrown.insert hns.proper hp hparent rfl rfl ?_ ?_
    · rw [Table.get?_insert, if_pos rfl]
      rfl
    · intro q hq
      rw [Table.get?_insert, if_neg hq]
  · rw [Memory.get?_put, if_pos rfl]

theorem answer_create (h : Agrees l m s) (hp : p ∈ l.files) :
    AnswersAlike l (.create p data replication blockSize) m s := by
  obtain ⟨m', s', hleft, hright, h', -⟩ := h.create data replication blockSize hp
  exact ⟨_, m', s', hleft, congrArg some hright, h'⟩

theorem answer_append (h : Agrees l m s) (hp : p ∈ l.files) :
    AnswersAlike l (.append p data) m s := by
  obtain ⟨ns, name, hns, rfl, haccepts⟩ := h.exists_names hp
  rcases (h.holds _ hns.proper).nothing_or_file hp
    with ⟨hm, hs⟩ | ⟨e, hm, hfile, hpolls, hs, hfactor⟩
  · have hleft : m.append (ofNames (ns ++ [name])) data =
        (.error (.notFound (ofNames (ns ++ [name]))), m) := by
      rw [Memory.append, Memory.file_eq_error_of_none hm]
    have hright := Local.append_of_none (Local.leadsTo_ofNames hns) hs data
    exact ⟨_, _, _, congrArg some hleft, congrArg some hright, h⟩
  · have hleft : m.append (ofNames (ns ++ [name])) data =
        (.ok (.int data.length),
          m.put (ofNames (ns ++ [name])) { e with data := e.data ++ data }) := by
      rw [Memory.append, Memory.file_eq_ok_iff.mpr ⟨hm, hfile⟩]
    have hright := h.mounted.append_of_file (Local.leadsTo_ofNames hns) haccepts hs data
    have hparent :=
      h.orderly.2.hasDirectory_of_append hns.proper (Memory.contains_iff.mpr ⟨e, hm⟩)
    refine ⟨_, _, _, congrArg some hleft, congrArg some hright, ?_⟩
    exact h.insert (e := { e with data := e.data ++ data }) hns.proper hp hparent hfile
      hpolls hfactor fun _ _ => rfl

theorem answer_read (h : Agrees l m s) (hp : p ∈ l.files) (hlength : Request.IsLength length) :
    AnswersAlike l (.read p length) m s := by
  obtain ⟨ns, hns, rfl⟩ := l.isCanonical p (Or.inl hp)
  have haccepts := h.accepts (Or.inl hp)
  rcases (h.holds _ hns.proper).nothing_or_file hp with ⟨hm, hs⟩ | ⟨e, hm, hfile, -, hs, -⟩
  · have hleft : m.read (ofNames ns) length = (.error (.notFound (ofNames ns)), m) := by
      rw [Memory.read, Memory.file_eq_error_of_none hm]
    have hright := Local.read_of_none (Local.leadsTo_ofNames hns) hs length
    exact ⟨_, _, _, congrArg some hleft, congrArg some hright, h⟩
  · have hstored := Memory.file_eq_ok_iff.mpr ⟨hm, hfile⟩
    have hright := h.mounted.read_of_file (Local.leadsTo_ofNames hns) haccepts hs length
    rcases hlength with rfl | ⟨n, hn, hnonneg, hroom⟩
    · have hleft : m.read (ofNames ns) .null = (.ok (.bytes e.data), m) := by
        rw [Memory.read, hstored]
      exact ⟨_, _, _, congrArg some hleft, congrArg some hright, h⟩
    · have hleft := Memory.read_of_file hstored hn hnonneg
      rw [Local.firstBytes_of_room hn hnonneg hroom] at hright
      exact ⟨_, _, _, congrArg some hleft, congrArg some hright, h⟩

theorem answer_setReplication (h : Agrees l m s) (hp : p ∈ l.files) :
    AnswersAlike l (.setReplication p factor) m s := by
  obtain ⟨ns, name, hns, rfl, -⟩ := h.exists_names hp
  have hstored := h.isStored_eq hns
  rcases (h.holds _ hns.proper).nothing_or_file hp
    with ⟨hm, hs⟩ | ⟨e, hm, hfile, hpolls, hs, hfactor⟩
  · rw [Memory.contains_eq_false hm] at hstored
    have hleft : m.setReplication (ofNames (ns ++ [name])) factor =
        (.error (.notFound (ofNames (ns ++ [name]))), m) := by
      rw [Memory.setReplication, Memory.file_eq_error_of_none hm]
    have hright : s.setReplication (ofNames (ns ++ [name])) factor =
        (.error (.notFound (ofNames (ns ++ [name]))), s) := by
      rw [Local.setReplication, hstored, if_neg Bool.false_ne_true]
    exact ⟨_, _, _, congrArg some hleft, congrArg some hright, h⟩
  · have hcontains := Memory.contains_iff.mpr ⟨e, hm⟩
    rw [hcontains] at hstored
    have hleft : m.setReplication (ofNames (ns ++ [name])) factor =
        (.ok .yes, m.put (ofNames (ns ++ [name]))
        { e with target := factor, pendingPolls := 0, replication := factor }) := by
      rw [Memory.setReplication, Memory.file_eq_ok_iff.mpr ⟨hm, hfile⟩]
      simp only [h.lag, if_true]
    have hright : s.setReplication (ofNames (ns ++ [name])) factor =
        (.ok .yes, { s with factors := s.factors.insert (ofNames (ns ++ [name])) factor }) := by
      rw [Local.setReplication, if_pos hstored]
    refine ⟨_, _, _, congrArg some hleft, congrArg some hright, ?_⟩
    have hparent := h.orderly.2.hasDirectory_of_append hns.proper hcontains
    refine h.write (e := { e with target := factor, pendingPolls := 0, replication := factor })
      hns.proper hp hparent hfile rfl h.mounted.isTree ?_ ?_ ?_
    · intro place
      split
      · rename_i heq
        rw [heq, hs]
      · rfl
    · rw [Table.get?_insert, if_pos rfl]
    · intro q hq
      rw [Table.get?_insert, if_neg hq]

theorem answer_getReplication (h : Agrees l m s) (hp : p ∈ l.files) :
    AnswersAlike l (.getReplication p) m s := by
  obtain ⟨ns, hns, rfl⟩ := l.isCanonical p (Or.inl hp)
  have hstored := h.isStored_eq hns
  rcases (h.holds _ hns.proper).nothing_or_file hp
    with ⟨hm, hs⟩ | ⟨e, hm, hfile, hpolls, hs, hfactor⟩
  · rw [Memory.contains_eq_false hm] at hstored
    have hleft : m.getReplication (ofNames ns) = (.error (.notFound (ofNames ns)), m) := by
      rw [Memory.getReplication, Memory.file_eq_error_of_none hm]
    have hright : s.getReplication (ofNames ns) = (.error (.notFound (ofNames ns)), s) := by
      rw [Local.getReplication, hstored, if_neg Bool.false_ne_true]
    exact ⟨_, _, _, congrArg some hleft, congrArg some hright, h⟩
  · have hcontains := Memory.contains_iff.mpr ⟨e, hm⟩
    rw [hcontains] at hstored
    have hpolled : e.polled = e := by
      rw [Memory.Entry.polled, if_neg (by simp [hpolls])]
    have hleft : m.getReplication (ofNames ns) =
        (.ok (.value e.replication), m.put (ofNames ns) e) := by
      rw [Memory.getReplication, Memory.file_eq_ok_iff.mpr ⟨hm, hfile⟩]
      simp only [hpolled]
    have hright : s.getReplication (ofNames ns) = (.ok (.value e.replication), s) := by
      rw [Local.getReplication, if_pos hstored, hfactor]
      rfl
    refine ⟨_, _, _, congrArg some hleft, congrArg some hright, ?_⟩
    refine h.of_get?_eq rfl (h.orderly.put_of_file (Memory.file_eq_ok_iff.mpr ⟨hm, hfile⟩) e) ?_
    intro b hb
    rw [Memory.get?_put]
    split
    · rename_i heq
      rw [heq, hm]
    · rfl

theorem answer_delete (h : Agrees l m s) (hp : p ∈ l.files) : AnswersAlike l (.delete p) m s := by
  obtain ⟨ns, hns, rfl⟩ := l.isCanonical p (Or.inl hp)
  have haccepts := h.accepts (Or.inl hp)
  rcases (h.holds _ hns.proper).nothing_or_file hp with ⟨hm, hs⟩ | ⟨e, hm, hfile, -, hs, -⟩
  · have hleft : m.delete (ofNames ns) = (.error (.notFound (ofNames ns)), m) := by
      rw [Memory.delete, if_pos (by simp [Memory.contains_eq_false hm])]
    have hright := Local.delete_of_none (Local.leadsTo_ofNames hns) hs
    exact ⟨_, _, _, congrArg some hleft, congrArg some hright, h⟩
  · have hcontains := Memory.contains_iff.mpr ⟨e, hm⟩
    obtain ⟨m', hleft, hm'⟩ := h.orderly.2.delete h.orderly.1 hns.proper hcontains
    have hright := h.mounted.delete_of_file (Local.leadsTo_ofNames hns) haccepts hs
    exact ⟨_, _, _, congrArg some hleft, congrArg some hright, h.remove hns.proper hp hm hm'⟩

theorem answer_rename (h : Agrees l m s) {source target : Path} (hsource : source ∈ l.files)
    (htarget : target ∈ l.files) : AnswersAlike l (.rename source target) m s := by
  obtain ⟨a, ha, rfl⟩ := l.isCanonical source (Or.inl hsource)
  obtain ⟨ns, name, hns, rfl, haccepts⟩ := h.exists_names htarget
  have haccepts' := h.accepts (Or.inl hsource)
  have hstored := h.isStored_eq ha
  rcases (h.holds _ ha.proper).nothing_or_file hsource with ⟨hm, -⟩ | ⟨e, hm, -, -, hs, -⟩
  · have hcontains := Memory.contains_eq_false hm
    have hleft : m.rename (ofNames a) (ofNames (ns ++ [name])) =
        some (.error (.notFound (ofNames a)), m) := by
      rw [Memory.rename, hcontains]
      rfl
    have hright : s.rename (ofNames a) (ofNames (ns ++ [name])) =
        (.error (.notFound (ofNames a)), s) := by
      rw [Local.rename, hstored, hcontains]
      rfl
    exact ⟨_, _, _, hleft, congrArg some hright, h⟩
  · have hcontains := Memory.contains_iff.mpr ⟨e, hm⟩
    by_cases htaken : m.contains (ofNames (ns ++ [name]))
    · have hleft : m.rename (ofNames a) (ofNames (ns ++ [name])) = some (.ok .no, m) := by
        rw [Memory.rename, hcontains, htaken]
        rfl
      have hright : s.rename (ofNames a) (ofNames (ns ++ [name])) = (.ok .no, s) := by
        rw [Local.rename, hstored, hcontains, h.isStored_eq hns, htaken]
        rfl
      exact ⟨_, _, _, hleft, congrArg some hright, h⟩
    · have hfree := Memory.not_contains_iff.mp htaken
      have hfree' : s.tree.get? (s.root ++ (ns ++ [name])) = none := by
        rw [← h.contains_eq hns.proper, Host.Tree.contains_iff, not_exists] at htaken
        exact Option.eq_none_iff_forall_ne_some.mpr htaken
      have hbelow : ¬ a <+: ns ++ [name] := by
        refine fun hpre => Layout.not_mem_files_of_isPrefix hns.proper (Or.inl htarget)
          hpre ?_ hsource
        rintro rfl
        exact htaken hcontains
      have hup := (Host.allCanonical_append_singleton.mp hns).1
      obtain ⟨hopen, hopen'⟩ :=
        h.isOpen hup.proper (Layout.not_mem_files_above hns.proper (Or.inl htarget))
      obtain ⟨grown, m', hgrown, hleft, hm'⟩ :=
        h.orderly.2.rename h.orderly.1 ha.proper hcontains hns.proper htaken hbelow hopen
      obtain ⟨t, ht, hright⟩ :=
        h.mounted.rename_of_file (Local.leadsTo_ofNames ha) haccepts' hs
          (Local.leadsTo_ofNames hns) haccepts hfree' hbelow hopen'
      refine ⟨_, _, _, hleft, congrArg some hright, ?_⟩
      exact h.move ha.proper hsource hns htarget
        (haccepts.of_isPrefix (List.prefix_append ns [name])) hm hfree hbelow hgrown hm' ht

theorem answer_listdir (h : Agrees l m s) (hp : p ∈ l.directories) :
    AnswersAlike l (.listdir p) m s := by
  obtain ⟨ns, hns, rfl⟩ := l.isCanonical p (Or.inr hp)
  have haccepts := h.accepts (Or.inr hp)
  have hmem : ofNames ns ∉ l.files := fun hfile => l.disjoint _ hfile hp
  rcases (h.holds _ hns.proper).nothing_or_directory hmem with ⟨hm, hs⟩ | ⟨e, hm, hdir, hs⟩
  · have hleft : m.listdir (ofNames ns) = (.error (.notFound (ofNames ns)), m) := by
      rw [Memory.listdir, if_neg (by simp [hm])]
    have hright := Local.listdir_of_none (Local.leadsTo_ofNames hns) hs
    exact ⟨_, _, _, congrArg some hleft, congrArg some hright, h⟩
  · have hleft : m.listdir (ofNames ns) = (.ok (.value (.list ((m.namesBelow (ofNames ns)).map
        fun name => .text name.toText))), m) := by
      rw [Memory.listdir, if_pos (by simp [hm, hdir])]
    have hright := h.mounted.listdir_of_directory (Local.leadsTo_ofNames hns) haccepts hs
    rw [← h.namesBelow_eq hns.proper] at hright
    exact ⟨_, _, _, congrArg some hleft, congrArg some hright, h⟩

/-- A call that the layout allows is answered alike. -/
theorem exists_answer (h : Agrees l m s) {request : Request} (hr : l.Allows request) :
    AnswersAlike l request m s := by
  cases request with
  | create path data replication blockSize => exact h.answer_create data replication blockSize hr
  | append path data => exact h.answer_append data hr
  | read path length => exact h.answer_read length hr.1 hr.2
  | delete path => exact h.answer_delete hr
  | rename source target => exact h.answer_rename hr.1 hr.2
  | setReplication path factor => exact h.answer_setReplication factor hr
  | getReplication path => exact h.answer_getReplication hr
  | listdir path => exact h.answer_listdir hr
  | mkdirs path => exact h.answer_mkdirs hr
  | isStored path => exact h.answer_isStored hr

end Answer

end Agrees

section Serve

variable {root : Host.Place} {tree : Host.Tree}

end Serve

end StorageLoad
