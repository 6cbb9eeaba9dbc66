import StorageLoad.Proofs.Path

/-!
Names as a host tells them.  Where stray halves are the bytes of a character one after the other,
the host tells that character, so that two texts can stand for one name.  What it tells of a
proper name is a proper name (`isProper_canonical`), and a name without stray halves is told as it
was given (`canonical_eq_self`).
-/

namespace StorageLoad

namespace Host

open StorageLoad.Path

section Rejoin

variable {c d : Char} {cs : List Char} {name : Name}

theorem le_toNat_strayByte (h : isStray c) : 0x80 ≤ (strayByte c).toNat := by
  simp only [isStray, Bool.and_eq_true, decide_eq_true_eq] at h
  obtain ⟨-, hlower, hupper⟩ := h
  rw [strayByte, UInt8.toNat_ofNat']
  omega

theorem joined?_eq_none (h : isStray c = false) : joined? (c :: cs) = none := by
  have hnone : (ByteArray.mk #[]).utf8DecodeChar? 0 = none := rfl
  rw [joined?, List.takeWhile_cons_of_neg (by simp [h])]
  exact congrArg (Option.filter _) hnone

theorem le_toNat_of_joined? (h : joined? cs = some d) : 0x80 ≤ d.toNat := by
  obtain ⟨hdecode, -⟩ := Option.filter_eq_some_iff.mp h
  obtain ⟨rest, hbytes⟩ := ByteArray.exists_of_utf8DecodeChar?_eq_some hdecode
  by_contra hascii
  have hsize : d.utf8Size = 1 := by
    rw [Char.utf8Size_eq_one_iff, UInt32.le_iff_toNat_le]
    exact Nat.le_of_lt_succ (Nat.not_le.mp hascii)
  rw [String.utf8EncodeChar_eq_singleton hsize] at hbytes
  have hlist := congrArg (fun b : ByteArray => b.data.toList) hbytes
  cases hrun : cs.takeWhile isStray with
  | nil => simp [hrun] at hlist
  | cons c run =>
      have hstray : isStray c :=
        List.all_eq_true.mp List.all_takeWhile c (hrun ▸ List.mem_cons_self)
      have hfirst : strayByte c = d.val.toUInt8 := by
        simp [hrun] at hlist
        exact hlist.1
      have hbyte := le_toNat_strayByte hstray
      rw [hfirst] at hbyte
      have hmod : d.val.toUInt8.toNat = d.toNat % 256 := rfl
      omega

theorem rejoin_of_joined? (h : joined? (c :: cs) = some d) :
    rejoin 0 (c :: cs) = d :: rejoin (d.utf8Size - 1) cs := by
  rw [rejoin, h]

theorem rejoin_of_not_joined? (h : joined? (c :: cs) = none) :
    rejoin 0 (c :: cs) = c :: rejoin 0 cs := by
  rw [rejoin, h]

theorem rejoin_eq_nil_iff : rejoin 0 cs = [] ↔ cs = [] := by
  cases cs with
  | nil => simp [rejoin]
  | cons c cs =>
      cases hjoined : joined? (c :: cs) with
      | none => simp [rejoin_of_not_joined? hjoined]
      | some d => simp [rejoin_of_joined? hjoined]

theorem mem_rejoin (n : Nat) (h : d ∈ rejoin n cs) : d ∈ cs ∨ 0x80 ≤ d.toNat := by
  induction cs generalizing n with
  | nil => simp [rejoin] at h
  | cons c cs ih =>
      cases n with
      | succ n => exact (ih n h).imp_left (List.mem_cons_of_mem c)
      | zero =>
          cases hjoined : joined? (c :: cs) with
          | none =>
              rw [rejoin_of_not_joined? hjoined, List.mem_cons] at h
              rcases h with rfl | h
              · exact Or.inl List.mem_cons_self
              · exact (ih 0 h).imp_left (List.mem_cons_of_mem c)
          | some d' =>
              rw [rejoin_of_joined? hjoined, List.mem_cons] at h
              rcases h with rfl | h
              · exact Or.inr (le_toNat_of_joined? hjoined)
              · exact (ih _ h).imp_left (List.mem_cons_of_mem c)

theorem eq_of_rejoin_ascii (h : ∀ d ∈ rejoin 0 cs, d.toNat < 0x80) : rejoin 0 cs = cs := by
  induction cs with
  | nil => rfl
  | cons c cs ih =>
      cases hjoined : joined? (c :: cs) with
      | none =>
          rw [rejoin_of_not_joined? hjoined] at h ⊢
          rw [ih (List.forall_mem_cons.mp h).2]
      | some d =>
          rw [rejoin_of_joined? hjoined] at h
          exact absurd (le_toNat_of_joined? hjoined)
            (Nat.not_le.mpr (List.forall_mem_cons.mp h).1)

/-- A name without stray halves is told as it was given. -/
theorem canonical_eq_self (h : ∀ c ∈ name, isStray c = false) : canonical name = name := by
  rw [canonical]
  induction name with
  | nil => rfl
  | cons c name ih =>
      obtain ⟨hfirst, hrest⟩ := List.forall_mem_cons.mp h
      rw [rejoin_of_not_joined? (joined?_eq_none hfirst), ih hrest]

theorem isProper_canonical (h : name.IsProper) : (canonical name).IsProper := by
  refine ⟨fun hnil => h.ne_nil (rejoin_eq_nil_iff.mp hnil), fun hslash => ?_, ?_⟩
  · exact (mem_rejoin 0 hslash).elim h.slash_not_mem (by decide)
  · -- The names with dots are of ASCII, so they are told of themselves only.
    rw [← Bool.not_eq_true]
    intro hdots
    have hascii : ∀ d ∈ canonical name, d.toNat < 0x80 := by
      simp only [isDots, Bool.or_eq_true, decide_eq_true_eq] at hdots
      rcases hdots with heq | heq
      all_goals simp [heq, current, parent]
    rw [canonical, eq_of_rejoin_ascii hascii, h.not_dots] at hdots
    cases hdots

end Rejoin

section Canonical

/-- A proper name that a host tells as it was given. -/
structure IsCanonical (name : Name) : Prop extends name.IsProper where
  canonical_eq : canonical name = name

instance (name : Name) : Decidable (IsCanonical name) :=
  decidable_of_iff (name.IsProper ∧ canonical name = name)
    ⟨fun ⟨hproper, heq⟩ => ⟨hproper, heq⟩, fun ⟨hproper, heq⟩ => ⟨hproper, heq⟩⟩

def AllCanonical (names : List Name) : Prop :=
  ∀ name ∈ names, IsCanonical name

instance (names : List Name) : Decidable (AllCanonical names) :=
  inferInstanceAs (Decidable (∀ name ∈ names, IsCanonical name))

variable {a b names : List Name} {name : Name}

theorem AllCanonical.proper (h : AllCanonical names) : AllProper names :=
  fun name hname => (h name hname).toIsProper

theorem AllCanonical.of_isPrefix (h : AllCanonical b) (hab : a <+: b) : AllCanonical a :=
  fun name hname => h name (hab.subset hname)

theorem allCanonical_append_singleton :
    AllCanonical (names ++ [name]) ↔ AllCanonical names ∧ IsCanonical name := by
  simp [AllCanonical, or_imp, forall_and]

theorem AllCanonical.map_canonical (h : AllCanonical names) : names.map canonical = names :=
  (List.map_congr_left fun name hname => (h name hname).canonical_eq).trans (List.map_id names)

theorem allProper_map_canonical (h : AllProper names) : AllProper (names.map canonical) :=
  List.forall_mem_map.mpr fun name hname => isProper_canonical (h name hname)

end Canonical

end Host

namespace Path

open StorageLoad.Host

variable {names : List Name} {p : Path}

/-- A normalised path whose names a host tells as they are given. -/
def IsCanonical (p : Path) : Prop :=
  ∃ names, AllCanonical names ∧ p = ofNames names

theorem isCanonical_ofNames (h : AllCanonical names) : (ofNames names).IsCanonical :=
  ⟨names, h, rfl⟩

/-- A normalised path without stray halves is of names that a host tells as they are given. -/
theorem IsNormal.isCanonical (h : p.IsNormal) (hplain : ∀ c ∈ p, isStray c = false) :
    p.IsCanonical := by
  obtain ⟨names, hnames, rfl⟩ := h
  refine isCanonical_ofNames fun name hname =>
    ⟨hnames name hname, canonical_eq_self fun c hc => ?_⟩
  have hne : names ≠ [] := List.ne_nil_of_mem hname
  rw [ofNames_of_ne_nil hne] at hplain
  exact hplain c (List.mem_flatMap.mpr ⟨name, hname, List.mem_cons_of_mem '/' hc⟩)

end Path

end StorageLoad
