import Mathlib.Data.List.DropRight
import StorageLoad.Proofs.Memory.Rename

/-!
When a rename leaves everything in a stored directory.  Stored paths may have any text here, such
as one with slashes at its end.  A rename takes along what goes on from the source behind a slash,
but not the source with a bare slash; it breaks the tree exactly if such a path is left behind, or
if the target lies below the source and so loses the directories that have just been made for it
(`rename_hasParents_iff`).
-/

namespace StorageLoad

namespace Path

/-- A text that is not empty and ends in no slash. -/
structure IsBare (b : Path) : Prop where
  ne_nil : b ≠ []
  strip : stripSlashes b = b

theorem IsNormal.isBare {p : Path} (h : p.IsNormal) (hne : p ≠ ['/']) : p.IsBare := by
  obtain ⟨names, hnames, rfl⟩ := h
  have hnil : names ≠ [] := by
    rintro rfl
    exact hne rfl
  rw [ofNames_of_ne_nil hnil]
  exact ⟨fun heq => hnil (stem_eq_nil_iff.mp heq), stripSlashes_stem hnames⟩

/-- How the path of what a rename takes along goes on from the source: a bare slash is not
taken. -/
def IsTaken (s : Path) : Prop :=
  s.IsTail ∧ s ≠ ['/']

theorem isTaken_nil : IsTaken [] :=
  ⟨Or.inl rfl, List.cons_ne_nil _ _ ∘ Eq.symm⟩

theorem IsTail.of_isPrefix {s t : Path} (h : t.IsTail) (hst : s <+: t) : s.IsTail := by
  cases s with
  | nil => exact Or.inl rfl
  | cons c s =>
      obtain ⟨rest, rfl⟩ := hst
      exact Or.inr (h.resolve_left (List.cons_ne_nil _ _))

/-- The way up from what goes on from a path, as far as it goes on from that path. -/
def upwards (s : Path) : Path :=
  stripSlashes (upToSlash s)

section Directory

variable {b d p s : Path}

theorem isPrefix_stripSlashes (p : Path) : stripSlashes p <+: p := by
  rw [← List.reverse_suffix, stripSlashes, List.reverse_reverse]
  exact List.dropWhile_suffix _

theorem isPrefix_upToSlash (p : Path) : upToSlash p <+: p := by
  rw [← List.reverse_suffix, upToSlash, List.reverse_reverse]
  exact List.dropWhile_suffix _

theorem isTail_upwards (h : s.IsTail) : (upwards s).IsTail :=
  h.of_isPrefix ((isPrefix_stripSlashes _).trans (isPrefix_upToSlash s))

theorem stripSlashes_stripSlashes (p : Path) :
    stripSlashes (stripSlashes p) = stripSlashes p := by
  rw [stripSlashes, stripSlashes, List.reverse_reverse, List.dropWhile_idempotent]

theorem isTaken_upwards (h : s.IsTail) : (upwards s).IsTaken := by
  refine ⟨isTail_upwards h, fun heq => ?_⟩
  have hstrip := stripSlashes_stripSlashes (upToSlash s)
  rw [← upwards, heq] at hstrip
  cases hstrip

theorem exists_upToSlash (h : '/' ∈ s) : ∃ t, upToSlash s = t ++ ['/'] := by
  induction s using List.reverseRecOn with
  | nil => cases h
  | append_singleton s c ih =>
      rcases eq_or_ne c '/' with rfl | hc
      · exact ⟨s, by simp [upToSlash]⟩
      · have hmem : '/' ∈ s := by simpa [hc.symm] using h
        obtain ⟨t, ht⟩ := ih hmem
        exact ⟨t, by simpa [upToSlash, hc] using ht⟩

theorem length_upwards_lt (h : '/' ∈ s) : (upwards s).length < s.length := by
  obtain ⟨t, ht⟩ := exists_upToSlash h
  have hle := (isPrefix_upToSlash s).length_le
  have hstrip := length_stripSlashes_le t
  rw [upwards, ht, stripSlashes_append_slash]
  rw [ht, List.length_append, List.length_singleton] at hle
  omega

theorem upToSlash_append (b : Path) (h : '/' ∈ s) : upToSlash (b ++ s) = b ++ upToSlash s := by
  have hsome : (s.reverse.dropWhile (· ≠ '/')).isEmpty = false := by
    obtain ⟨t, ht⟩ := exists_upToSlash h
    rw [upToSlash, List.reverse_eq_iff] at ht
    rw [ht]
    simp
  rw [upToSlash, List.reverse_append, List.dropWhile_append, hsome]
  simp [upToSlash]

theorem stripSlashes_append (h : stripSlashes b = b) (u : Path) :
    stripSlashes (b ++ u) = b ++ stripSlashes u := by
  rw [stripSlashes, List.reverse_append, List.dropWhile_append]
  split
  · rename_i hempty
    rw [← stripSlashes, h, stripSlashes, List.isEmpty_iff.mp hempty]
    simp
  · simp [stripSlashes]

theorem IsBare.not_all_slash (h : b.IsBare) : ¬ b.all (· = '/') := by
  intro hall
  refine h.ne_nil ?_
  rw [← h.strip, stripSlashes, List.dropWhile_eq_nil_iff.mpr]
  · rfl
  · intro c hc
    exact List.all_eq_true.mp hall c (List.mem_reverse.mp hc)

theorem IsBare.append_ne_slash (h : b.IsBare) (s : Path) : b ++ s ≠ ['/'] := by
  intro heq
  rcases List.append_eq_singleton_iff.mp heq with ⟨rfl, -⟩ | ⟨rfl, -⟩
  · exact h.ne_nil rfl
  · cases h.strip

theorem IsBare.directory_append (h : b.IsBare) (hs : '/' ∈ s) :
    directory (b ++ s) = b ++ upwards s := by
  rw [directory, upToSlash_append b hs, if_neg, stripSlashes_append h.strip]
  · rfl
  · rw [List.all_append, Bool.and_eq_true]
    exact fun hall => h.not_all_slash hall.1

theorem exists_of_stripSlashes (p : Path) :
    ∃ rest, p ++ ['/'] = stripSlashes p ++ '/' :: rest := by
  have hsplit : stripSlashes p ++ (p.reverse.takeWhile (· = '/')).reverse = p := by
    rw [stripSlashes, ← List.reverse_append, List.takeWhile_append_dropWhile,
      List.reverse_reverse]
  have hslash : ∀ c ∈ (p.reverse.takeWhile (· = '/')).reverse, c = '/' := by
    intro c hc
    have htest := List.mem_takeWhile_imp (List.mem_reverse.mp hc)
    exact of_decide_eq_true htest
  generalize (p.reverse.takeWhile (· = '/')).reverse = rest at hsplit hslash
  cases rest with
  | nil => exact ⟨[], by rw [← hsplit, List.append_nil, stripSlashes_stripSlashes]⟩
  | cons c rest =>
      obtain rfl := hslash c List.mem_cons_self
      exact ⟨rest ++ ['/'], by nth_rewrite 1 [← hsplit]; simp⟩

theorem exists_of_directory (h : p.directory = d) (hd : ¬ d.all (· = '/')) :
    ∃ rest, p = d ++ '/' :: rest := by
  rw [directory] at h
  split at h
  · rename_i hall
    exact absurd (h ▸ hall) hd
  · rename_i hall
    have hmem : '/' ∈ p := by
      by_contra hmem
      have hpass : upToSlash p = [] := by
        rw [upToSlash, List.reverse_eq_nil_iff, List.dropWhile_eq_nil_iff]
        intro c hc
        exact decide_eq_true fun hslash => hmem (hslash ▸ List.mem_reverse.mp hc)
      rw [hpass] at hall
      exact hall rfl
    obtain ⟨t, ht⟩ := exists_upToSlash hmem
    obtain ⟨rest, hrest⟩ := exists_of_stripSlashes t
    have hp := upToSlash_append_name p
    rw [ht, stripSlashes_append_slash] at h
    rw [ht, hrest, h] at hp
    exact ⟨rest ++ p.name, hp.symm.trans (by simp)⟩

end Directory

end Path

namespace Memory

open StorageLoad.Path

variable {m m' grown : Memory} {source target b q s : Path} {names : List Name}

/-- Everything but the top lies in a stored directory. -/
def AllInDirectories (m : Memory) : Prop :=
  ∀ p ∈ m.paths, p ≠ ['/'] → m.HasDirectory p.directory

theorem HasParents.hasDirectory_of_slash (h : m.HasParents) (hb : b.IsBare)
    (hs : s.head? = some '/') (hp : m.contains (b ++ s)) : m.HasDirectory b := by
  induction hlength : s.length using Nat.strong_induction_on generalizing s with
  | _ n ih =>
      have hmem : '/' ∈ s := List.mem_of_mem_head? hs
      have hdir := h.parent _ (mem_paths_iff.mpr (contains_iff.mp hp)) (hb.append_ne_slash s)
      rw [hb.directory_append hmem] at hdir
      rcases isTail_upwards (Or.inr hs) with hnil | hslash
      · rwa [hnil, List.append_nil] at hdir
      · exact ih _ (hlength ▸ length_upwards_lt hmem) hslash hdir.contains rfl

theorem HasParents.get?_eq_none_of_tail (h : m.HasParents) (hb : b.IsBare)
    (hfree : m.get? b = none) (hs : s.IsTail) : m.get? (b ++ s) = none := by
  rcases hs with rfl | hs
  · rwa [List.append_nil]
  · rw [← not_contains_iff] at hfree ⊢
    exact fun hp => hfree (h.hasDirectory_of_slash hb hs hp).contains

theorem HasParents.not_contains_of_tail (h : m.HasParents) (hb : b.IsBare)
    (hfree : m.get? b = none) (hs : s.IsTail) : ¬ m.contains (b ++ s) :=
  not_contains_iff.mpr (h.get?_eq_none_of_tail hb hfree hs)

theorem mem_children_bare_iff (hs : m.IsSorted) (hb : b.IsBare) :
    q ∈ m.children b ↔ ∃ s : Path, s.IsTaken ∧ s ≠ [] ∧ q = b ++ s ∧ m.contains q := by
  rw [mem_children_iff hs, below, hb.strip]
  constructor
  · rintro ⟨hq, ⟨rest, rfl⟩, hne⟩
    refine ⟨'/' :: rest, ⟨Or.inr rfl, ?_⟩, List.cons_ne_nil _ _, by simp, hq⟩
    intro heq
    exact hne (by simp [(List.cons.inj heq).2])
  · rintro ⟨s, ⟨htail, hslash⟩, hnil, rfl, hq⟩
    obtain ⟨c, rest, rfl⟩ := List.exists_cons_of_ne_nil hnil
    obtain rfl : c = '/' := Option.some.inj (htail.resolve_left hnil)
    refine ⟨hq, ⟨rest, by simp⟩, ?_⟩
    intro heq
    exact hslash ((List.append_right_inj b).mp heq).symm

/-- What the service is after what a rename takes along has gone from one path to another. -/
structure Carried (m : Memory) (source target : Path) (m' : Memory) : Prop where
  onto : ∀ s : Path, s.IsTaken → m'.get? (target ++ s) = m.get? (source ++ s)
  off : ∀ s : Path, s.IsTaken → (∀ t : Path, t.IsTaken → source ++ s ≠ target ++ t) →
    m'.get? (source ++ s) = none
  other : ∀ q, (∀ s : Path, s.IsTaken → q ≠ source ++ s ∧ q ≠ target ++ s) → m'.get? q = m.get? q

section Carry

variable (h : m.HasParents) (hs : m.IsSorted) (hsource : source.IsBare) (htarget : target.IsBare)
  (hfree : m.get? target = none)

include h hs hsource htarget hfree

theorem HasParents.get?_carryBelow :
    (∀ s : Path, s.IsTaken → s ≠ [] → m.contains (source ++ s) →
      ((m.children source).foldl (fun m p => m.move p (target ++ p.drop source.length)) m).get?
        (target ++ s) = m.get? (source ++ s)) ∧
      ∀ q, (∀ s : Path, s.IsTaken → s ≠ [] → m.contains (source ++ s) → q ≠ target ++ s) →
        ((m.children source).foldl
            (fun m p => m.move p (target ++ p.drop source.length)) m).get? q =
          if q ∈ m.children source then none else m.get? q := by
  have hplace : ∀ s, target ++ (source ++ s).drop source.length = target ++ s := fun s => by
    rw [List.drop_left]
  have hinj : ∀ p ∈ m.children source, ∀ q ∈ m.children source,
      target ++ p.drop source.length = target ++ q.drop source.length → p = q := by
    intro p hp q hq heq
    obtain ⟨s, -, -, rfl, -⟩ := (mem_children_bare_iff hs hsource).mp hp
    obtain ⟨t, -, -, rfl, -⟩ := (mem_children_bare_iff hs hsource).mp hq
    rw [hplace, hplace, List.append_right_inj] at heq
    rw [heq]
  have hout : ∀ p ∈ m.children source, target ++ p.drop source.length ∉ m.children source := by
    intro p hp hmem
    obtain ⟨s, htaken, -, rfl, -⟩ := (mem_children_bare_iff hs hsource).mp hp
    obtain ⟨-, -, -, -, hstored⟩ := (mem_children_bare_iff hs hsource).mp hmem
    rw [hplace] at hstored
    exact h.not_contains_of_tail htarget hfree htaken.1 hstored
  have hstored : ∀ p ∈ m.children source, m.contains p := by
    intro p hp
    obtain ⟨-, -, -, -, hstored⟩ := (mem_children_bare_iff hs hsource).mp hp
    exact hstored
  obtain ⟨hmoved, hstay⟩ := get?_foldl_move (fun p => target ++ p.drop source.length)
    (nodup_children hs source) hinj hout hstored
  constructor
  · intro s htaken hnil hstored
    have hchild := (mem_children_bare_iff hs hsource).mpr ⟨s, htaken, hnil, rfl, hstored⟩
    rw [← hplace s, hmoved _ hchild]
  · intro q hq
    refine hstay q ?_
    intro p hp
    obtain ⟨s, htaken, hnil, rfl, hstored⟩ := (mem_children_bare_iff hs hsource).mp hp
    rw [hplace]
    exact hq s htaken hnil hstored

theorem HasParents.carry (hp : m.contains source) :
    ((m.children source).foldl (fun m p => m.move p (target ++ p.drop source.length)) m).contains
      source ∧ m.Carried source target (((m.children source).foldl
        (fun m p => m.move p (target ++ p.drop source.length)) m).move source target) := by
  obtain ⟨hmoved, hstay⟩ := h.get?_carryBelow hs hsource htarget hfree
  generalize
    (m.children source).foldl (fun m p => m.move p (target ++ p.drop source.length)) m = moved
    at hmoved hstay ⊢
  have hnone : ∀ s : Path, s.IsTail → m.get? (target ++ s) = none := fun s =>
    h.get?_eq_none_of_tail htarget hfree
  obtain ⟨e, he⟩ := contains_iff.mp hp
  have hapart : ∀ t : Path, t.IsTail → source ≠ target ++ t := by
    intro t ht heq
    rw [heq, hnone t ht] at he
    cases he
  have hself : moved.get? source = some e := by
    rw [hstay, if_neg, he]
    · intro hmem
      obtain ⟨s, -, hnil, heq, -⟩ := (mem_children_bare_iff hs hsource).mp hmem
      exact hnil (List.self_eq_append_right.mp heq)
    · exact fun s htaken _ _ => hapart s htaken.1
  have hget := get?_move moved hself target
  refine ⟨contains_iff.mpr ⟨e, hself⟩, ?_, ?_, ?_⟩
  · intro s htaken
    rw [hget]
    rcases eq_or_ne s [] with rfl | hnil
    · rw [List.append_nil, List.append_nil, if_pos rfl, he]
    · rw [if_neg (by simpa using hnil), if_neg (hapart s htaken.1).symm]
      by_cases hstored : m.contains (source ++ s)
      · exact hmoved s htaken hnil hstored
      · rw [hstay, hnone s htaken.1, ite_self, not_contains_iff.mp hstored]
        intro t _ _ hstored' heq
        rw [(List.append_right_inj target).mp heq] at hstored
        exact hstored hstored'
  · intro s htaken hout
    rw [hget, if_neg (by simpa using hout [] isTaken_nil)]
    rcases eq_or_ne s [] with rfl | hnil
    · rw [List.append_nil, if_pos rfl]
    · rw [if_neg (by simpa using hnil), hstay]
      · split
        · rfl
        · rename_i hnot
          rw [← not_contains_iff]
          exact fun hstored =>
            hnot ((mem_children_bare_iff hs hsource).mpr ⟨s, htaken, hnil, rfl, hstored⟩)
      · exact fun t ht _ _ => hout t ht
  · intro q hq
    have hself' := hq [] isTaken_nil
    rw [List.append_nil, List.append_nil] at hself'
    rw [hget, if_neg hself'.2, if_neg hself'.1, hstay, if_neg]
    · intro hmem
      obtain ⟨s, htaken, -, heq, -⟩ := (mem_children_bare_iff hs hsource).mp hmem
      exact (hq s htaken).1 heq
    · exact fun s htaken _ _ => (hq s htaken).2

end Carry

section Carried

variable (hc : m.Carried source target m') (h : m.HasParents) (hsource : source.IsBare)
  (htarget : target.IsBare) (hfree : m.get? target = none)

include hc

theorem Carried.not_allInDirectories_of_below (hsource : source.IsBare) (htarget : target.IsBare)
    (hp : m.contains source) (hbelow : source ++ ['/'] <+: target) : ¬ m'.AllInDirectories := by
  obtain ⟨rest, rfl⟩ := hbelow
  intro hall
  have hmem : '/' ∈ '/' :: rest := List.mem_cons_self
  have hstored := contains_iff.mp hp
  have hself := hc.onto [] isTaken_nil
  rw [List.append_nil, List.append_nil] at hself
  rw [← hself] at hstored
  have hne : source ++ ['/'] ++ rest ≠ ['/'] := by
    rw [← List.append_nil (source ++ ['/'] ++ rest)]
    exact htarget.append_ne_slash []
  obtain ⟨e, he, -⟩ := hall _ (mem_paths_iff.mpr hstored) hne
  rw [List.append_assoc, List.singleton_append, hsource.directory_append hmem,
    hc.off (upwards ('/' :: rest)) (isTaken_upwards (Or.inr rfl))] at he
  · cases he
  · intro t _ heq
    have hlt := length_upwards_lt hmem
    have hlength := congrArg List.length heq
    simp only [List.length_append, List.length_cons, List.length_nil] at hlt hlength
    omega

include h htarget hfree

theorem Carried.hasDirectory {d : Path} (hd : m.HasDirectory d)
    (hout : ∀ s : Path, s.IsTaken → d ≠ source ++ s) : m'.HasDirectory d := by
  obtain ⟨e, he, hdir⟩ := hd
  refine ⟨e, ?_, hdir⟩
  rw [hc.other d, he]
  intro s hs
  refine ⟨hout s hs, ?_⟩
  rintro rfl
  rw [h.get?_eq_none_of_tail htarget hfree hs.1] at he
  cases he

theorem Carried.get?_source (hp : m.contains source) : m'.get? source = none := by
  have hnone := hc.off [] isTaken_nil
  rw [List.append_nil] at hnone
  refine hnone ?_
  rintro t ht heq
  exact h.not_contains_of_tail htarget hfree ht.1 (heq ▸ hp)

include hsource

theorem Carried.hasDirectory_slash : m'.HasDirectory ['/'] :=
  hc.hasDirectory h htarget hfree h.root fun s _ heq => hsource.append_ne_slash s heq.symm

theorem Carried.hasDirectory_directory (hd : m.HasDirectory q.directory)
    (hout : ∀ rest, q ≠ source ++ '/' :: rest) : m'.HasDirectory q.directory := by
  refine hc.hasDirectory h htarget hfree hd ?_
  intro s hs heq
  have hall : ¬ (source ++ s).all (· = '/') := by
    rw [List.all_append, Bool.and_eq_true]
    exact fun hall => hsource.not_all_slash hall.1
  obtain ⟨rest, hq⟩ := exists_of_directory heq hall
  rcases hs.1 with rfl | hslash
  · exact hout rest (by simpa using hq)
  · obtain ⟨t, rfl⟩ := List.head?_eq_some_iff.mp hslash
    exact hout (t ++ '/' :: rest) (by simpa using hq)

theorem Carried.allInDirectories (hparent : m.HasDirectory target.directory)
    (hbelow : ¬ source ++ ['/'] <+: target) (hslash : ¬ m.contains (source ++ ['/'])) :
    m'.AllInDirectories := by
  intro q hq hne
  rw [mem_paths_iff] at hq
  by_cases honto : ∃ s : Path, s.IsTaken ∧ q = target ++ s
  · obtain ⟨s, hs, rfl⟩ := honto
    rcases hs.1 with rfl | hhead
    · rw [List.append_nil]
      refine hc.hasDirectory_directory h hsource htarget hfree hparent ?_
      exact fun rest heq => hbelow ⟨rest, by simp [heq]⟩
    · have hmem : '/' ∈ s := List.mem_of_mem_head? hhead
      rw [hc.onto s hs] at hq
      obtain ⟨e, he, hdir⟩ := h.parent _ (mem_paths_iff.mpr hq) (hsource.append_ne_slash s)
      rw [hsource.directory_append hmem] at he
      rw [htarget.directory_append hmem]
      exact ⟨e, (hc.onto _ (isTaken_upwards hs.1)).trans he, hdir⟩
  · by_cases hoff : ∃ s : Path, s.IsTaken ∧ q = source ++ s
    · obtain ⟨s, hs, rfl⟩ := hoff
      rw [hc.off s hs fun t ht heq => honto ⟨t, ht, heq⟩] at hq
      obtain ⟨e, he⟩ := hq
      cases he
    · rw [hc.other q fun s hs => ⟨fun heq => hoff ⟨s, hs, heq⟩, fun heq => honto ⟨s, hs, heq⟩⟩]
        at hq
      refine hc.hasDirectory_directory h hsource htarget hfree
        (h.parent q (mem_paths_iff.mpr hq) hne) ?_
      rintro rest rfl
      rcases eq_or_ne rest [] with rfl | hrest
      · exact hslash (contains_iff.mpr hq)
      · exact hoff ⟨'/' :: rest, ⟨Or.inr rfl, by simpa using hrest⟩, rfl⟩

theorem Carried.not_allInDirectories_of_slash (hp : m.contains source)
    (hslash : m.contains (source ++ ['/'])) : ¬ m'.AllInDirectories := by
  intro hall
  have hkept : m'.get? (source ++ ['/']) = m.get? (source ++ ['/']) := by
    refine hc.other _ fun s hs =>
      ⟨fun heq => hs.2 ((List.append_right_inj source).mp heq).symm, ?_⟩
    exact fun heq => h.not_contains_of_tail htarget hfree hs.1 (heq ▸ hslash)
  rw [contains_iff, ← hkept] at hslash
  obtain ⟨e, he, -⟩ := hall _ (mem_paths_iff.mpr hslash) (hsource.append_ne_slash ['/'])
  have hup : upwards ['/'] = [] := rfl
  rw [hsource.directory_append List.mem_cons_self, hup, List.append_nil,
    hc.get?_source h htarget hfree hp] at he
  cases he

theorem Carried.allInDirectories_iff (hp : m.contains source)
    (hparent : m.HasDirectory target.directory) :
    m'.AllInDirectories ↔ ¬ source ++ ['/'] <+: target ∧ ¬ m.contains (source ++ ['/']) := by
  constructor
  · intro hall
    constructor
    · exact fun hbelow => hc.not_allInDirectories_of_below hsource htarget hp hbelow hall
    · exact fun hslash => hc.not_allInDirectories_of_slash h hsource htarget hfree hp hslash hall
  · rintro ⟨hbelow, hslash⟩
    exact hc.allInDirectories h hsource htarget hfree hparent hbelow hslash

end Carried

section Rename

variable {name : Name}

theorem Grown.contains_slash_iff (hgrown : m.Grown names grown) (hnames : AllProper names)
    (hsource : source.IsBare) : grown.contains (source ++ ['/']) ↔
    m.contains (source ++ ['/']) := by
  rw [contains_iff, contains_iff, hgrown.other]
  intro a ha heq
  rcases eq_or_ne a [] with rfl | hanil
  · exact hsource.append_ne_slash ['/'] heq
  · have hstrip := stripSlashes_stem (hnames.of_isPrefix ha)
    rw [← ofNames_of_ne_nil hanil, ← heq, stripSlashes_append_slash] at hstrip
    have hlength := congrArg List.length hstrip
    have hle := length_stripSlashes_le source
    simp only [List.length_append, List.length_singleton] at hlength
    omega

theorem HasParents.rename_of_isOpen (h : m.HasParents) (hs : m.IsSorted)
    (hsource : source.IsNormal) (htop : source ≠ ['/']) (hp : m.contains source)
    (hnames : AllProper (names ++ [name])) (hfree : ¬ m.contains (ofNames (names ++ [name])))
    (hopen : m.IsOpen names) :
    ∃ m', m.rename source (ofNames (names ++ [name])) = some (.ok .yes, m') ∧
      m'.HasDirectory ['/'] ∧ (m'.AllInDirectories ↔
        ¬ source ++ ['/'] <+: ofNames (names ++ [name]) ∧ ¬ m.contains (source ++ ['/'])) := by
  have hup := (allProper_append_singleton.mp hnames).1
  obtain ⟨grown, hmake, hgrown⟩ := makeDirectories_of_isOpen h hup hopen
  have hsource := hsource.isBare htop
  have htarget := (isNormal_ofNames hnames).isBare (ofNames_append_singleton_ne_slash hnames)
  have hfree' : grown.get? (ofNames (names ++ [name])) = none := by
    rw [hgrown.get?_of_not_isPrefix hup hnames (not_append_singleton_isPrefix names name)]
    exact not_contains_iff.mp hfree
  have hp' : grown.contains source := by
    obtain ⟨e, he⟩ := contains_iff.mp hp
    exact contains_iff.mpr ⟨e, hgrown.kept _ e he⟩
  have hparent : grown.HasDirectory (ofNames (names ++ [name])).directory := by
    rw [directory_ofNames hnames]
    exact hgrown.hasDirectory_of_isPrefix hopen List.prefix_rfl
  have hparents := hgrown.hasParents h hup hopen
  obtain ⟨hthere, hcarried⟩ := hparents.carry (hgrown.sorted hs) hsource htarget hfree' hp'
  refine ⟨_, ?_, hcarried.hasDirectory_slash hparents hsource htarget hfree', ?_⟩
  · rw [Memory.rename, if_neg (by simpa using hp), if_neg hfree, directory_ofNames hnames, hmake]
    exact if_pos hthere
  · rw [hcarried.allInDirectories_iff hparents hsource htarget hfree' hp' hparent,
      hgrown.contains_slash_iff hup hsource]

/-- A rename that does not succeed has changed nothing. -/
theorem HasParents.rename_cases (h : m.HasParents) (hs : m.IsSorted) (hsource : source.IsNormal)
    (htarget : target.IsNormal) (htop : source ≠ ['/']) :
    (∃ answer, answer ≠ .ok .yes ∧ m.rename source target = some (answer, m)) ∨
      ∃ m', m.rename source target = some (.ok .yes, m') ∧ m'.HasDirectory ['/'] ∧
        (m'.AllInDirectories ↔ ¬ source ++ ['/'] <+: target ∧
          ¬ m.contains (source ++ ['/'])) := by
  by_cases hp : m.contains source
  · by_cases hfree : m.contains target
    · refine Or.inl ⟨.ok .no, (fun heq => by cases heq), ?_⟩
      rw [Memory.rename, if_neg (by simpa using hp), if_pos hfree]
    · obtain ⟨names, hnames, rfl⟩ := htarget
      cases names using List.reverseRecOn with
      | nil => exact absurd h.root.contains hfree
      | append_singleton names name =>
          by_cases hopen : m.IsOpen names
          · exact Or.inr (h.rename_of_isOpen hs hsource htop hp hnames hfree hopen)
          · obtain ⟨p, hmake⟩ :=
              makeDirectories_of_not_isOpen h (allProper_append_singleton.mp hnames).1 hopen
            refine Or.inl ⟨.error (.isFile p), (fun heq => by cases heq), ?_⟩
            rw [Memory.rename, if_neg (by simpa using hp), if_neg hfree,
              directory_ofNames hnames, hmake]
  · refine Or.inl ⟨.error (.notFound source), (fun heq => by cases heq), ?_⟩
    rw [Memory.rename, if_pos (by simpa using hp)]

/-- Whatever calls have been made, if everything lies in a stored directory, then a rename to
another normalised path ends; it leaves everything as it was unless it succeeds, and then
everything but the top lies in a stored directory exactly if the target does not lie below the
source and nothing is stored at the source with a slash behind it. -/
theorem rename_hasParents_iff {lag : Int} {requests : List Request}
    {answers : List (Except StoreFault Reply)}
    (hserve : Storage.serve requests (fresh lag) = some (answers, m)) (h : m.HasParents)
    (hsource : source.IsNormal) (htarget : target.IsNormal) (htop : source ≠ ['/']) :
    ∃ answer m', m.rename source target = some (answer, m') ∧ (answer ≠ .ok .yes → m' = m) ∧
      m'.HasDirectory ['/'] ∧
        (m'.AllInDirectories ↔
          (answer = .ok .yes → ¬ source ++ ['/'] <+: target ∧
            ¬ m.contains (source ++ ['/']))) := by
  rcases h.rename_cases (isSorted_of_serve hserve) hsource htarget htop with
    ⟨answer, hno, hrename⟩ | ⟨m', hrename, hroot, hall⟩
  · exact ⟨answer, m, hrename, fun _ => rfl, h.root, iff_of_true h.parent fun hyes =>
      absurd hyes hno⟩
  · refine ⟨_, m', hrename, fun hno => absurd rfl hno, hroot, ?_⟩
    rw [hall]
    exact ⟨fun hkept _ => hkept, fun hkept => hkept rfl⟩

/-- A directory goes to a free place with everything below it. -/
theorem rename_hasParents_iff_neighbours :
    ∃ answers m m', Storage.serve neighbours (fresh 2) = some (answers, m) ∧
    m.HasParents ∧ m.rename (ofNames [['a']]) (ofNames [['b'], ['c']]) = some (.ok .yes, m') ∧
    m'.HasDirectory ['/'] ∧ m'.AllInDirectories := by
  obtain ⟨answers, m, hserve, hm⟩ := Storage.exists_serve IsOrderly Request.RespectsTree
    (fun request m hm hr => hm.exists_answer hr) respectsTree_of_mem_neighbours
    ⟨isSorted_fresh 2, isTree_fresh 2⟩
  have hlook : (Storage.serve neighbours (fresh 2)).map (fun result =>
      (result.2.contains (ofNames [['a']]), result.2.contains (ofNames [['b'], ['c']]),
        result.2.contains (ofNames [['a']] ++ ['/']),
        (ofNames [['b']]).ancestors.find? result.2.contains)) =
          some (true, false, false, some ['/']) := by
    decide +kernel
  rw [hserve] at hlook
  simp only [Option.map_some, Option.some.injEq, Prod.mk.injEq] at hlook
  obtain ⟨hstored, hfree, hslash, hbase⟩ := hlook
  have hsource : AllProper [['a']] := by decide
  have htarget : AllProper ([['b']] ++ [['c']]) := by decide
  have hopen : m.IsOpen [['b']] := hm.2.isOpen_of_find? (by decide) hbase hm.2.root
  obtain ⟨-, m', -, hrename, -⟩ := hm.2.rename hm.1 hsource hstored htarget
    (by rw [List.singleton_append, hfree]; exact Bool.false_ne_true) (by decide) hopen
  obtain ⟨answer, after, hrename', -, hroot, hall⟩ := rename_hasParents_iff hserve hm.2.hasParents
    (isNormal_ofNames hsource) (isNormal_ofNames htarget) (by decide)
  rw [hrename] at hrename'
  obtain ⟨-, rfl⟩ := Prod.mk.inj (Option.some.inj hrename')
  refine ⟨answers, m, m', hserve, hm.2.hasParents, hrename, hroot, hall.mpr fun _ =>
    ⟨by decide, ?_⟩⟩
  rw [hslash]
  exact Bool.false_ne_true

/-- A directory is renamed to a path below itself, where nothing is left above it. -/
theorem rename_orphans :
    ∃ answers m m', Storage.serve [.mkdirs (ofNames [['a']])] (fresh 0) = some (answers, m) ∧
    m.HasParents ∧ m.rename (ofNames [['a']]) (ofNames [['a'], ['b']]) = some (.ok .yes, m') ∧
    ¬ m'.AllInDirectories := by
  have hsource : AllProper [['a']] := by decide
  have htarget : AllProper ([['a']] ++ [['b']]) := by decide
  obtain ⟨m, hgrown, hmake⟩ := (isTree_fresh 0).mkdirs_of_isOpen hsource (isOpen_fresh 0 [['a']])
  have htree := hgrown.isTree (isTree_fresh 0) hsource (isOpen_fresh 0 [['a']])
  have hdir := fun {a} => hgrown.hasDirectory_of_isPrefix (a := a) (isOpen_fresh 0 [['a']])
  have hfree : ¬ m.contains (ofNames ([['a']] ++ [['b']])) := by
    rw [not_contains_iff, hgrown.get?_of_not_isPrefix hsource htarget (by decide)]
    rfl
  have hopen : m.IsOpen [['a']] := by
    intro a ha e he
    obtain ⟨d, hd, hdirectory⟩ := hdir ha
    rw [hd] at he
    exact Option.some.inj he ▸ hdirectory
  obtain ⟨m', hrename, -, hall⟩ :=
    htree.hasParents.rename_of_isOpen (hgrown.sorted (isSorted_fresh 0))
      (isNormal_ofNames hsource) (by decide) (hdir List.prefix_rfl).contains htarget hfree hopen
  refine ⟨_, m, m', Storage.serve_cons hmake rfl, htree.hasParents, hrename, ?_⟩
  rw [hall]
  exact fun hkept => hkept.1 (by decide)

end Rename

end Memory

end StorageLoad
