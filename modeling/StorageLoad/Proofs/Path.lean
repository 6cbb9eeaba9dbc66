import Mathlib.Data.List.Induction
import Mathlib.Data.List.Infix
import StorageLoad.Path
import StorageLoad.Proofs.Codes
import StorageLoad.Proofs.Table
import StorageLoad.Store.Host

/-!
The order of paths, in which those that begin with a path stand together (`isPrefix_of_lt_of_lt`),
and normalised absolute paths as rows of names.  The main statements on these are that such a path
has one row of names only (`ofNames_inj`), that going up drops the last name
(`directory_ofNames`), and that what every path below begins with tells the paths below from all
others (`stem_append_slash_isPrefix_ofNames_iff`).
-/

namespace StorageLoad

namespace Path

variable {b p q : Path}

theorem map_codeOf_injective : Function.Injective (List.map Text.codeOf) :=
  List.map_injective_iff.mpr Text.codeOf_injective

instance : Std.Irrefl fun p q : Path => p < q :=
  ⟨fun p => List.lt_irrefl (p.map Text.codeOf)⟩

instance : Std.Trichotomous fun p q : Path => p < q :=
  ⟨fun _ _ h h' => map_codeOf_injective (List.le_antisymm (List.not_lt.mp h') (List.not_lt.mp h))⟩

instance : Std.Trichotomous fun ps qs : List Path => ps < qs :=
  ⟨fun _ _ h h' => List.le_antisymm (List.not_lt.mp h') (List.not_lt.mp h)⟩

instance : Trans (fun p q : Path => p < q) (fun p q : Path => p < q) fun p q : Path => p < q :=
  ⟨fun h h' => List.lt_trans h h'⟩

theorem cons_lt_cons_iff {c d : Char} :
    c :: p < d :: q ↔ Text.codeOf c < Text.codeOf d ∨ c = d ∧ p < q := by
  rw [← Text.codeOf_injective.eq_iff]
  exact List.cons_lt_cons_iff

theorem lt_of_append_lt_append (h : b ++ p < b ++ q) : p < q := by
  change (b ++ p).map Text.codeOf < (b ++ q).map Text.codeOf at h
  rw [List.map_append, List.map_append] at h
  exact Table.lt_of_append_lt_append h

/-- A path between two others of which the first begins the second begins with that path too. -/
theorem isPrefix_of_lt_of_lt (hbp : b < p) (hpq : p < q) (hbq : b <+: q) : b <+: p := by
  induction b generalizing p q with
  | nil => exact List.nil_prefix
  | cons c b ih =>
      obtain ⟨rest, rfl⟩ := hbq
      cases p with
      | nil => exact absurd hbp (List.not_lt_nil _)
      | cons d p =>
          rw [List.cons_append] at hpq
          rcases cons_lt_cons_iff.mp hbp with hcd | ⟨rfl, htail⟩
          · rcases cons_lt_cons_iff.mp hpq with hdc | ⟨rfl, -⟩
            · exact absurd hcd (Nat.lt_asymm hdc)
            · exact absurd hcd (Nat.lt_irrefl _)
          · rcases cons_lt_cons_iff.mp hpq with hcc | ⟨-, htail'⟩
            · exact absurd hcc (Nat.lt_irrefl _)
            · exact List.cons_prefix_cons.mpr ⟨rfl, ih htail htail' (List.prefix_append b rest)⟩

theorem lt_iff_ne_of_isPrefix (h : b <+: p) : b < p ↔ b ≠ p := by
  constructor
  · rintro hlt rfl
    exact Std.Irrefl.irrefl b hlt
  · intro hne
    rcases List.le_iff_lt_or_eq.mp (List.IsPrefix.le (h.map Text.codeOf)) with hlt | heq
    · exact hlt
    · exact absurd (map_codeOf_injective heq) hne

end Path

/-- A name that says where to go down: it is not empty, holds no slash, and is neither of the
names for the directory itself and the one above. -/
structure Name.IsProper (name : Name) : Prop where
  ne_nil : name ≠ []
  slash_not_mem : '/' ∉ name
  not_dots : Host.isDots name = false

instance (name : Name) : Decidable name.IsProper :=
  decidable_of_iff (name ≠ [] ∧ '/' ∉ name ∧ Host.isDots name = false)
    ⟨fun ⟨hne, hslash, hdots⟩ => ⟨hne, hslash, hdots⟩,
      fun ⟨hne, hslash, hdots⟩ => ⟨hne, hslash, hdots⟩⟩

/-- A row of names that all are proper. -/
def AllProper (names : List Name) : Prop :=
  ∀ name ∈ names, Name.IsProper name

instance (names : List Name) : Decidable (AllProper names) :=
  inferInstanceAs (Decidable (∀ name ∈ names, Name.IsProper name))

theorem AllProper.of_isPrefix {a b : List Name} (h : AllProper b) (hab : a <+: b) : AllProper a :=
  fun name hname => h name (hab.subset hname)

theorem allProper_append_singleton {names : List Name} {name : Name} :
    AllProper (names ++ [name]) ↔ AllProper names ∧ name.IsProper := by
  simp [AllProper, or_imp, forall_and]

theorem not_append_singleton_isPrefix {α : Type} (l : List α) (a : α) : ¬ l ++ [a] <+: l := by
  intro hpre
  have hlength := hpre.length_le
  rw [List.length_append, List.length_singleton] at hlength
  omega

namespace Path

/-- The names, each after a slash. -/
def stem (names : List Name) : Path :=
  names.flatMap ('/' :: ·)

/-- The path that leads down along names. -/
def ofNames (names : List Name) : Path :=
  if names = [] then ['/'] else stem names

/-- A normalised absolute path: a slash alone, or proper names, each after a slash. -/
def IsNormal (p : Path) : Prop :=
  ∃ names, AllProper names ∧ p = ofNames names

@[simp] theorem ofNames_nil : ofNames [] = ['/'] :=
  rfl

theorem ofNames_of_ne_nil {names : List Name} (h : names ≠ []) : ofNames names = stem names :=
  if_neg h

theorem stem_append_singleton (names : List Name) (name : Name) :
    stem (names ++ [name]) = stem names ++ '/' :: name := by
  simp [stem]

@[simp] theorem ofNames_append_singleton (names : List Name) (name : Name) :
    ofNames (names ++ [name]) = stem names ++ '/' :: name := by
  rw [ofNames_of_ne_nil (by simp), stem_append_singleton]

theorem isNormal_ofNames {names : List Name} (h : AllProper names) : (ofNames names).IsNormal :=
  ⟨names, h, rfl⟩

theorem isAbsolute_ofNames (names : List Name) : (ofNames names).isAbsolute := by
  cases names with
  | nil => rfl
  | cons name names => simp [ofNames, stem, isAbsolute]

theorem splitAll_stem {names : List Name} (h : AllProper names) :
    Text.splitAll '/' (stem names) = [] :: names := by
  induction names using List.reverseRecOn with
  | nil => rfl
  | append_singleton names name ih =>
      obtain ⟨hnames, hname⟩ := allProper_append_singleton.mp h
      rw [stem_append_singleton, Text.splitAll_append_sep, ih hnames,
        Text.splitAll_of_not_mem hname.slash_not_mem, List.cons_append]

theorem stem_ne_slash {names : List Name} (h : AllProper names) : stem names ≠ ['/'] := by
  intro heq
  have hsplit := splitAll_stem h
  rw [heq] at hsplit
  have hnames : names = [[]] := by simpa [Text.splitAll] using hsplit.symm
  exact (h [] (by simp [hnames])).ne_nil rfl

theorem ofNames_inj {a b : List Name} (ha : AllProper a) (hb : AllProper b) :
    ofNames a = ofNames b ↔ a = b := by
  constructor
  · intro h
    by_cases hna : a = [] <;> by_cases hnb : b = []
    · rw [hna, hnb]
    · rw [hna, ofNames_of_ne_nil hnb] at h
      exact absurd h.symm (stem_ne_slash hb)
    · rw [hnb, ofNames_of_ne_nil hna] at h
      exact absurd h (stem_ne_slash ha)
    · rw [ofNames_of_ne_nil hna, ofNames_of_ne_nil hnb] at h
      have hsplit := splitAll_stem ha
      rw [h, splitAll_stem hb] at hsplit
      exact (List.cons.inj hsplit).2.symm
  · rintro rfl
    rfl

section Upwards

theorem upToSlash_append_slash (p : Path) {name : Name} (h : '/' ∉ name) :
    upToSlash (p ++ '/' :: name) = p ++ ['/'] := by
  have hpass : ∀ c ∈ name.reverse, decide (c ≠ '/') = true := by
    intro c hc
    refine decide_eq_true ?_
    rintro rfl
    exact h (List.mem_reverse.mp hc)
  simp only [upToSlash, List.reverse_append, List.reverse_cons, List.append_assoc,
    List.singleton_append]
  rw [List.dropWhile_append_of_pos hpass]
  simp

theorem stripSlashes_append_slash (p : Path) : stripSlashes (p ++ ['/']) = stripSlashes p := by
  simp [stripSlashes]

theorem stripSlashes_stem {names : List Name} (h : AllProper names) :
    stripSlashes (stem names) = stem names := by
  cases names using List.reverseRecOn with
  | nil => rfl
  | append_singleton names name =>
      have hname := (allProper_append_singleton.mp h).2
      cases name using List.reverseRecOn with
      | nil => exact absurd rfl hname.ne_nil
      | append_singleton init last =>
          have hlast : last ≠ '/' := by
            rintro rfl
            exact hname.slash_not_mem (by simp)
          rw [stem_append_singleton]
          simp [stripSlashes, hlast]

theorem stripSlashes_ofNames {names : List Name} (h : AllProper names) :
    stripSlashes (ofNames names) = stem names := by
  by_cases hnil : names = []
  · subst hnil
    rfl
  · rw [ofNames_of_ne_nil hnil, stripSlashes_stem h]

theorem all_slash_stem_iff {names : List Name} (h : AllProper names) :
    (stem names).all (· = '/') ↔ names = [] := by
  constructor
  · intro hall
    by_contra hne
    obtain ⟨name, rest, rfl⟩ := List.exists_cons_of_ne_nil hne
    have hname := h name List.mem_cons_self
    obtain ⟨c, cs, rfl⟩ := List.exists_cons_of_ne_nil hname.ne_nil
    have hc : c = '/' := by
      have := List.all_eq_true.mp hall c (by simp [stem])
      simpa using this
    exact hname.slash_not_mem (by simp [hc])
  · rintro rfl
    rfl

@[simp] theorem directory_slash : directory ['/'] = ['/'] := by
  decide

theorem directory_ofNames {names : List Name} {name : Name} (h : AllProper (names ++ [name])) :
    directory (ofNames (names ++ [name])) = ofNames names := by
  obtain ⟨hnames, hname⟩ := allProper_append_singleton.mp h
  rw [ofNames_append_singleton, directory, upToSlash_append_slash _ hname.slash_not_mem]
  by_cases hnil : names = []
  · subst hnil
    rfl
  · have hall : ¬ ((stem names ++ ['/']).all (· = '/')) := by
      rw [List.all_append, Bool.and_eq_true, all_slash_stem_iff hnames]
      exact fun hboth => hnil hboth.1
    rw [if_neg hall, stripSlashes_append_slash, stripSlashes_stem hnames, ofNames_of_ne_nil hnil]

theorem ancestors_slash : ancestors ['/'] = [['/']] := by
  rw [ancestors, dif_pos directory_slash]

theorem ancestors_ofNames {names : List Name} {name : Name} (h : AllProper (names ++ [name])) :
    ancestors (ofNames (names ++ [name])) =
      ofNames (names ++ [name]) :: ancestors (ofNames names) := by
  have hne : ofNames names ≠ ofNames (names ++ [name]) := by
    rw [Ne, ofNames_inj (allProper_append_singleton.mp h).1 h]
    simp
  rw [ancestors, directory_ofNames h, dif_neg hne]

end Upwards

section Below

theorem stem_append (a b : List Name) : stem (a ++ b) = stem a ++ stem b :=
  List.flatMap_append

theorem stem_append_slash_isPrefix_iff {a b : List Name} (ha : AllProper a) (hb : AllProper b) :
    stem a ++ ['/'] <+: stem b ↔ a <+: b ∧ a ≠ b := by
  constructor
  · rintro ⟨rest, hrest⟩
    have hsplit : [] :: b = [] :: a ++ Text.splitAll '/' rest := by
      rw [← splitAll_stem hb, ← hrest, List.append_assoc, List.singleton_append,
        Text.splitAll_append_sep, splitAll_stem ha]
    have hb : b = a ++ Text.splitAll '/' rest := (List.cons.inj hsplit).2
    refine ⟨hb ▸ List.prefix_append a _, ?_⟩
    rintro rfl
    exact Text.splitAll_ne_nil '/' rest (List.self_eq_append_right.mp hb)
  · rintro ⟨⟨rest, rfl⟩, hne⟩
    cases rest with
    | nil => simp at hne
    | cons name rest =>
        refine ⟨name ++ stem rest, ?_⟩
        simp [stem]

theorem stem_append_slash_ne_stem {a b : List Name} (ha : AllProper a) (hb : AllProper b) :
    stem a ++ ['/'] ≠ stem b := by
  intro heq
  have hsplit := splitAll_stem hb
  rw [← heq, Text.splitAll_append_sep, splitAll_stem ha] at hsplit
  have hb' : a ++ [[]] = b := by simpa [Text.splitAll] using hsplit
  exact (hb [] (hb' ▸ by simp)).ne_nil rfl

theorem stem_eq_nil_iff {names : List Name} : stem names = [] ↔ names = [] := by
  cases names <;> simp [stem]

/-- The paths below a path are those that begin with its names and a slash; only the top begins
with that itself. -/
theorem stem_append_slash_isPrefix_ofNames_iff {a b : List Name} (ha : AllProper a)
    (hb : AllProper b) (h : a ≠ [] ∨ b ≠ []) :
    stem a ++ ['/'] <+: ofNames b ↔ a <+: b ∧ a ≠ b := by
  by_cases hnil : b = []
  · subst hnil
    have hna : a ≠ [] := h.resolve_right fun hb => hb rfl
    rw [ofNames_nil, List.prefix_nil]
    constructor
    · intro hpre
      have hlength := hpre.length_le
      simp [stem_eq_nil_iff] at hlength
      exact absurd hlength hna
    · rintro ⟨hna', -⟩
      exact absurd hna' hna
  · rw [ofNames_of_ne_nil hnil]
    exact stem_append_slash_isPrefix_iff ha hb

theorem isPrefix_and_ne_iff {a b : List Name} (ha : AllProper a) (hb : AllProper b) :
    stem a ++ ['/'] <+: ofNames b ∧ stem a ++ ['/'] ≠ ofNames b ↔ a <+: b ∧ a ≠ b := by
  by_cases hnil : a = [] ∧ b = []
  · obtain ⟨rfl, rfl⟩ := hnil
    simp [stem]
  · have hor : a ≠ [] ∨ b ≠ [] := by
      rwa [not_and_or] at hnil
    rw [stem_append_slash_isPrefix_ofNames_iff ha hb hor]
    refine and_iff_left_of_imp ?_
    rintro ⟨hab, hne⟩
    have hnb : b ≠ [] := by
      rintro rfl
      exact hne (List.prefix_nil.mp hab)
    rw [ofNames_of_ne_nil hnb]
    exact stem_append_slash_ne_stem ha hb

theorem ofNames_append_slash_isPrefix_iff {a b : List Name} (ha : AllProper a) (hb : AllProper b)
    (hnil : a ≠ []) : ofNames a ++ ['/'] <+: ofNames b ↔ a <+: b ∧ a ≠ b := by
  rw [ofNames_of_ne_nil hnil]
  exact stem_append_slash_isPrefix_ofNames_iff ha hb (Or.inl hnil)

theorem isProper_of_isNormal {a : List Name} (ha : AllProper a) {name : Name} (hne : name ≠ [])
    (hslash : '/' ∉ name) (h : IsNormal (stem a ++ '/' :: name)) : name.IsProper := by
  obtain ⟨b, hb, heq⟩ := h
  have hnil : b ≠ [] := by
    rintro rfl
    have hlength := congrArg List.length heq
    rw [ofNames_nil, List.length_append, List.length_cons, List.length_singleton] at hlength
    exact hne (List.eq_nil_of_length_eq_zero (by omega))
  have hsplit := splitAll_stem hb
  rw [ofNames_of_ne_nil hnil] at heq
  rw [← heq, Text.splitAll_append_sep, splitAll_stem ha, Text.splitAll_of_not_mem hslash]
    at hsplit
  obtain rfl : a ++ [name] = b := (List.cons.inj hsplit).2
  exact (allProper_append_singleton.mp hb).2

theorem join_of_slash_not_mem {a : List Name} (ha : AllProper a) {name : Name}
    (hslash : '/' ∉ name) :
    (ofNames a).join name = stem a ++ '/' :: name := by
  have hhead : ¬ name.head? = some '/' := fun hhead => hslash (List.mem_of_mem_head? hhead)
  rw [join, if_neg hhead]
  cases a using List.reverseRecOn with
  | nil => rfl
  | append_singleton a last =>
      have hlast := (allProper_append_singleton.mp ha).2
      rw [ofNames_of_ne_nil (by simp), if_neg]
      rintro (hnil | hend)
      · exact absurd (stem_eq_nil_iff.mp hnil) (by simp)
      · rw [stem_append_singleton, List.getLast?_append_of_ne_nil _ (by simp),
          List.getLast?_cons_of_ne_nil hlast.ne_nil] at hend
        exact hlast.slash_not_mem (List.mem_of_getLast? hend)

theorem join_ofNames {a : List Name} (ha : AllProper a) {name : Name} (hname : name.IsProper) :
    (ofNames a).join name = ofNames (a ++ [name]) := by
  rw [join_of_slash_not_mem ha hname.slash_not_mem, ofNames_append_singleton]

theorem not_isPrefix_of_not_below {a b : List Name} (ha : AllProper a) (hb : AllProper b)
    (hnil : a ≠ []) (hne : a ≠ b) (h : ¬ ofNames a ++ ['/'] <+: ofNames b) : ¬ a <+: b := by
  rw [ofNames_append_slash_isPrefix_iff ha hb hnil] at h
  exact fun hpre => h ⟨hpre, hne⟩

theorem ofNames_append_drop {a : List Name} (ha : a ≠ []) {b : List Name} (hb : b ≠ [])
    (rest : List Name) :
    ofNames b ++ (ofNames (a ++ rest)).drop (ofNames a).length = ofNames (b ++ rest) := by
  rw [ofNames_of_ne_nil ha, ofNames_of_ne_nil hb, ofNames_of_ne_nil (by simp [ha]),
    ofNames_of_ne_nil (by simp [hb]), stem_append, stem_append, List.drop_left]

end Below

end Path

end StorageLoad
