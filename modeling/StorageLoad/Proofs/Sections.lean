import Mathlib.Data.List.Induction
import StorageLoad.Proofs.Codes
import StorageLoad.Report

/-!
The sections of a report.  Statistics of which no two have both names in common are put in order
by operation and then by measurement, and are cut where the operation changes, so that the
sections one after the other are the statistics in order (`isCut_ofRecords`).
-/

namespace StorageLoad

theorem Text.eq_of_upTo {s t : String} (h : upTo s t) (h' : upTo t s) : s = t := by
  by_contra hne
  exact (upTo_iff t s).mp h' (lt_of_upTo h hne)

namespace Record

/-- By operation, and by measurement for the same operation. -/
def IsBefore (r s : Record) : Prop :=
  Text.codes r.opType < Text.codes s.opType ∨
    r.opType = s.opType ∧ Text.codes r.measurement < Text.codes s.measurement

variable {r s : Record}

theorem IsBefore.asymm (h : r.IsBefore s) : ¬ s.IsBefore r := by
  rintro (hlt' | ⟨heq', hlt'⟩)
  · rcases h with hlt | ⟨heq, -⟩
    · exact List.lt_asymm hlt hlt'
    · rw [heq] at hlt'
      exact List.lt_irrefl _ hlt'
  · rcases h with hlt | ⟨-, hlt⟩
    · rw [heq'] at hlt
      exact List.lt_irrefl _ hlt
    · exact List.lt_asymm hlt hlt'

theorem IsBefore.measurement_lt (h : r.IsBefore s) (hop : r.opType = s.opType) :
    Text.codes r.measurement < Text.codes s.measurement := by
  rcases h with hlt | ⟨-, hlt⟩
  · rw [hop] at hlt
    exact absurd hlt (List.lt_irrefl _)
  · exact hlt

theorem IsBefore.opType_lt (h : r.IsBefore s) (hop : r.opType ≠ s.opType) :
    Text.codes r.opType < Text.codes s.opType :=
  h.resolve_right fun hsame => hop hsame.1

end Record

namespace Report

section Order

variable {r s t : Record} {records : List Record}

theorem upTo_of_eq (h : r.opType = s.opType) : upTo r s = Text.upTo r.measurement s.measurement :=
  if_pos h

theorem upTo_of_ne (h : r.opType ≠ s.opType) : upTo r s = Text.upTo r.opType s.opType :=
  if_neg h

theorem upTo_total (r s : Record) : upTo r s || upTo s r := by
  by_cases h : r.opType = s.opType
  · rw [upTo_of_eq h, upTo_of_eq h.symm]
    exact Text.upTo_total _ _
  · rw [upTo_of_ne h, upTo_of_ne (Ne.symm h)]
    exact Text.upTo_total _ _

theorem upTo_trans (h : upTo r s) (h' : upTo s t) : upTo r t := by
  by_cases hrs : r.opType = s.opType
  · by_cases hst : s.opType = t.opType
    · rw [upTo_of_eq hrs] at h
      rw [upTo_of_eq hst] at h'
      rw [upTo_of_eq (hrs.trans hst)]
      exact Text.upTo_trans h h'
    · rw [upTo_of_ne hst] at h'
      rw [upTo_of_ne (hrs.trans_ne hst), hrs]
      exact h'
  · rw [upTo_of_ne hrs] at h
    by_cases hst : s.opType = t.opType
    · rw [upTo_of_ne (ne_of_ne_of_eq hrs hst), ← hst]
      exact h
    · rw [upTo_of_ne hst] at h'
      have hrt : r.opType ≠ t.opType := by
        intro heq
        rw [← heq] at h'
        exact hrs (Text.eq_of_upTo h h')
      rw [upTo_of_ne hrt]
      exact Text.upTo_trans h h'

theorem isBefore_of_upTo (h : upTo r s)
    (hne : (r.opType, r.measurement) ≠ (s.opType, s.measurement)) :
    r.IsBefore s := by
  by_cases hop : r.opType = s.opType
  · rw [upTo_of_eq hop] at h
    exact Or.inr ⟨hop, Text.lt_of_upTo h fun heq => hne (Prod.ext hop heq)⟩
  · rw [upTo_of_ne hop] at h
    exact Or.inl (Text.lt_of_upTo h hop)

theorem pairwise_isBefore (h : (records.map fun r => (r.opType, r.measurement)).Nodup) :
    (records.mergeSort upTo).Pairwise Record.IsBefore := by
  have hsorted : (records.mergeSort upTo).Pairwise fun r s => upTo r s = true := by
    apply List.pairwise_mergeSort
    · intro a b c
      exact upTo_trans
    · exact upTo_total
  have hnodup :=
    ((List.mergeSort_perm records upTo).map fun r => (r.opType, r.measurement)).nodup_iff.mpr h
  refine (hsorted.and (List.pairwise_map.mp hnodup)).imp ?_
  rintro r s ⟨hle, hne⟩
  exact isBefore_of_upTo hle hne

theorem ofRecords_eq_of_perm {others : List Record} (hperm : others.Perm records)
    (h : (records.map fun r => (r.opType, r.measurement)).Nodup) :
    ofRecords others = ofRecords records := by
  have hothers := (hperm.map fun r => (r.opType, r.measurement)).nodup_iff.mpr h
  have hsame : (others.mergeSort upTo).Perm (records.mergeSort upTo) :=
    (List.mergeSort_perm others upTo).trans (hperm.trans (List.mergeSort_perm records upTo).symm)
  have heq : others.mergeSort upTo = records.mergeSort upTo :=
    hsame.eq_of_pairwise (fun _ _ _ _ hab hba => absurd hba hab.asymm) (pairwise_isBefore hothers)
      (pairwise_isBefore h)
  rw [ofRecords, ofRecords, heq]

end Order

section Contents

variable {p : Figure → Prop} {r : Record} {records : List Record} {sections : List Section}

theorem forall_addFigure {measurement : String} {figure : Figure}
    {figures : List (String × Figure)} (hfigure : p figure) (h : ∀ entry ∈ figures, p entry.2) :
    ∀ entry ∈ addFigure measurement figure figures, p entry.2 := by
  induction figures with
  | nil => exact List.forall_mem_singleton.mpr hfigure
  | cons first figures ih =>
      obtain ⟨hfirst, hfigures⟩ := List.forall_mem_cons.mp h
      cases figures with
      | nil =>
          rw [addFigure]
          split
          · exact List.forall_mem_singleton.mpr hfigure
          · exact List.forall_mem_cons.mpr ⟨hfirst, List.forall_mem_singleton.mpr hfigure⟩
      | cons next figures => exact List.forall_mem_cons.mpr ⟨hfirst, ih hfigures⟩

theorem forall_addRecord (hr : p r.figure) (h : ∀ s ∈ sections, ∀ entry ∈ s.figures, p entry.2) :
    ∀ s ∈ addRecord r sections, ∀ entry ∈ s.figures, p entry.2 := by
  have hnew : ∀ entry ∈ [(r.measurement, r.figure)], p entry.2 := List.forall_mem_singleton.mpr hr
  induction sections with
  | nil => exact List.forall_mem_singleton.mpr hnew
  | cons first sections ih =>
      obtain ⟨hfirst, hsections⟩ := List.forall_mem_cons.mp h
      cases sections with
      | nil =>
          rw [addRecord]
          split
          · exact List.forall_mem_singleton.mpr (forall_addFigure hr hfirst)
          · exact List.forall_mem_cons.mpr ⟨hfirst, List.forall_mem_singleton.mpr hnew⟩
      | cons next sections => exact List.forall_mem_cons.mpr ⟨hfirst, ih hsections⟩

theorem forall_ofRecords (h : ∀ r ∈ records, p r.figure) :
    ∀ s ∈ (ofRecords records).sections, ∀ entry ∈ s.figures, p entry.2 := by
  apply List.foldlRecOn
    (motive := fun sections : List Section => ∀ s ∈ sections, ∀ entry ∈ s.figures, p entry.2)
  · nofun
  · intro sections hsections r hr
    exact forall_addRecord (h r (List.mem_mergeSort.mp hr)) hsections

end Contents

/-- The statistics that a section holds. -/
def Section.records (s : Section) : List Record :=
  s.figures.map fun entry => ⟨s.name, entry.1, entry.2⟩

/-- Statistics are cut into sections, none of them empty, with ascending names. -/
structure IsCut (records : List Record) (sections : List Section) : Prop where
  flatten : sections.flatMap Section.records = records
  filled : ∀ s ∈ sections, s.figures ≠ []
  ascending : (sections.map (·.name)).Pairwise fun k l => Text.codes k < Text.codes l

section Cutting

variable {r : Record} {records rest : List Record} {sections front : List Section} {s : Section}

theorem addFigure_append_singleton {measurement : String} {last : String × Figure}
    (h : last.1 ≠ measurement) (figure : Figure) (before : List (String × Figure)) :
    addFigure measurement figure (before ++ [last]) = before ++ [last] ++
      [(measurement, figure)] := by
  induction before with
  | nil => exact if_neg h
  | cons entry before ih =>
      rw [List.cons_append, List.cons_append, ← ih]
      cases before with
      | nil => rfl
      | cons next before => rfl

theorem addRecord_append_singleton (r : Record) (front : List Section) (s : Section) :
    addRecord r (front ++ [s]) =
      if s.name = r.opType then front ++
        [{ s with figures := addFigure r.measurement r.figure s.figures }]
      else front ++ [s] ++ [⟨r.opType, [(r.measurement, r.figure)]⟩] := by
  induction front with
  | nil => rfl
  | cons first front ih =>
      have hnext : addRecord r (first :: front ++ [s]) = first :: addRecord r (front ++ [s]) := by
        cases front with
        | nil => rfl
        | cons next front => rfl
      rw [hnext, ih, apply_ite (first :: ·)]
      rfl

theorem IsCut.extend (h : IsCut records (front ++ [s])) (measurement : String) (figure : Figure) :
    IsCut (records ++ [⟨s.name, measurement, figure⟩])
      (front ++ [{ s with figures := s.figures ++ [(measurement, figure)] }]) := by
  refine ⟨?_, ?_, ?_⟩
  · rw [← h.flatten]
    simp [Section.records]
  · intro q hq
    rcases List.mem_append.mp hq with hq | hq
    · exact h.filled q (List.mem_append_left _ hq)
    · rw [List.mem_singleton.mp hq]
      simp
  · simpa using h.ascending

theorem IsCut.start (h : IsCut records sections)
    (hbehind : ∀ s ∈ sections, Text.codes s.name < Text.codes r.opType) :
    IsCut (records ++ [r]) (sections ++ [⟨r.opType, [(r.measurement, r.figure)]⟩]) := by
  refine ⟨?_, ?_, ?_⟩
  · rw [← h.flatten]
    simp [Section.records]
  · intro q hq
    rcases List.mem_append.mp hq with hq | hq
    · exact h.filled q hq
    · rw [List.mem_singleton.mp hq]
      exact List.cons_ne_nil _ _
  · rw [List.map_append, List.pairwise_append]
    refine ⟨h.ascending, List.pairwise_singleton _ _, ?_⟩
    intro name hname other hother
    obtain ⟨s, hs, rfl⟩ := List.mem_map.mp hname
    rw [List.mem_singleton.mp hother]
    exact hbehind s hs

theorem IsCut.name_lt (h : IsCut records (front ++ [s])) {name : String}
    (hlt : Text.codes s.name < Text.codes name) : ∀ t ∈ front ++ [s],
    Text.codes t.name < Text.codes name := by
  have hascending := h.ascending
  rw [List.map_append, List.pairwise_append] at hascending
  intro t ht
  rcases List.mem_append.mp ht with ht | ht
  · exact List.lt_trans (hascending.2.2 t.name (List.mem_map_of_mem ht) s.name (by simp)) hlt
  · rwa [List.mem_singleton.mp ht]

/-- A statistic behind all others goes on with the last section, or begins one of its own. -/
theorem IsCut.addRecord (h : IsCut records sections) (hr : ∀ q ∈ records, q.IsBefore r) :
    IsCut (records ++ [r]) (addRecord r sections) := by
  cases sections using List.reverseRecOn with
  | nil => exact h.start nofun
  | append_singleton front s =>
      obtain ⟨before, last, hfigures⟩ :=
        (List.eq_nil_or_concat' s.figures).resolve_left (h.filled s (by simp))
      have hlast : Record.IsBefore ⟨s.name, last.1, last.2⟩ r := by
        apply hr
        rw [← h.flatten, List.flatMap_append, List.mem_append]
        right
        simp [Section.records, hfigures]
      rw [addRecord_append_singleton]
      by_cases hname : s.name = r.opType
      · have hmeasurement : last.1 ≠ r.measurement := by
          intro heq
          have hlt := hlast.measurement_lt hname
          rw [heq] at hlt
          exact List.lt_irrefl _ hlt
        have hextended := h.extend r.measurement r.figure
        rw [hfigures, ← addFigure_append_singleton hmeasurement, ← hfigures, hname] at hextended
        rw [if_pos hname, hname]
        exact hextended
      · rw [if_neg hname]
        exact h.start (h.name_lt (hlast.opType_lt hname))

theorem IsCut.foldl (h : IsCut records sections)
    (hsorted : (records ++ rest).Pairwise Record.IsBefore) :
    IsCut (records ++ rest)
      (rest.foldl (fun sections r => Report.addRecord r sections) sections) := by
  induction rest generalizing records sections with
  | nil => rwa [List.append_nil]
  | cons r rest ih =>
      have hbefore : ∀ q ∈ records, q.IsBefore r :=
        fun q hq => (List.pairwise_append.mp hsorted).2.2 q hq r List.mem_cons_self
      rw [List.append_cons] at hsorted ⊢
      exact ih (h.addRecord hbefore) hsorted

theorem isCut_ofRecords (h : (records.map fun r => (r.opType, r.measurement)).Nodup) :
    IsCut (records.mergeSort upTo) (ofRecords records).sections := by
  have hnothing : IsCut [] [] := ⟨rfl, nofun, List.Pairwise.nil⟩
  exact hnothing.foldl (pairwise_isBefore h)

end Cutting

namespace IsCut

variable {r : Record} {records : List Record} {sections : List Section} {s : Section}

theorem mem_iff (h : IsCut records sections) :
    r ∈ records ↔ ∃ s ∈ sections, r ∈ Section.records s := by
  rw [← h.flatten, List.mem_flatMap]

theorem mem_names_iff (h : IsCut records sections) (name : String) :
    name ∈ sections.map (·.name) ↔ ∃ r ∈ records, r.opType = name := by
  rw [List.mem_map]
  constructor
  · rintro ⟨s, hs, rfl⟩
    obtain ⟨entry, hentry⟩ := List.exists_mem_of_ne_nil _ (h.filled s hs)
    exact ⟨_, h.mem_iff.mpr ⟨s, hs, List.mem_map_of_mem hentry⟩, rfl⟩
  · rintro ⟨r, hr, rfl⟩
    obtain ⟨s, hs, hmem⟩ := h.mem_iff.mp hr
    obtain ⟨entry, -, rfl⟩ := List.mem_map.mp hmem
    exact ⟨s, hs, rfl⟩

theorem mem_figures_iff (h : IsCut records sections) (hs : s ∈ sections) (measurement : String)
    (figure : Figure) :
    (measurement, figure) ∈ s.figures ↔ ⟨s.name, measurement, figure⟩ ∈ records := by
  rw [h.mem_iff]
  constructor
  · intro hmem
    exact ⟨s, hs, List.mem_map_of_mem hmem⟩
  · rintro ⟨s', hs', hmem⟩
    obtain ⟨entry, hentry, heq⟩ := List.mem_map.mp hmem
    obtain ⟨hname, hmeasurement, hfigure⟩ := Record.mk.inj heq
    -- No two sections have the same name.
    have hsame : s' = s := by
      have hnodup : (sections.map (·.name)).Nodup := by
        refine h.ascending.imp ?_
        rintro k l hlt rfl
        exact List.lt_irrefl _ hlt
      exact List.inj_on_of_nodup_map hnodup hs' hs hname
    rw [← hsame, ← hmeasurement, ← hfigure]
    exact hentry

theorem ascending_figures (h : IsCut records sections)
    (hsorted : records.Pairwise Record.IsBefore) (hs : s ∈ sections) :
    (s.figures.map (·.1)).Pairwise fun k l =>
    Text.codes k < Text.codes l := by
  have hsub : (Section.records s).Sublist records := by
    rw [← h.flatten, List.flatMap_def]
    exact List.sublist_flatten_of_mem (List.mem_map_of_mem hs)
  have hfigures := List.pairwise_map.mp (hsorted.sublist hsub)
  exact List.pairwise_map.mpr (hfigures.imp fun hbefore => hbefore.measurement_lt rfl)

end IsCut

end Report

end StorageLoad
