import StorageLoad.Proofs.Config.WellFormed
import StorageLoad.Proofs.Selector

/-!
When every kind has one operation only.  That is so just where no two keys of the operations name
the same kind, in whatever case (`nodup_kinds_iff`): keys are told apart as they are written,
kinds are not.
-/

namespace StorageLoad.Options

open Outcome

/-- The kind that a key names. -/
def namedKind? (key : Value) : Option Kind :=
  key.toText?.toOption.bind Kind.ofText?

theorem IsSpecOf.namedKind? {totalOps : Option Int} {entry : Value × Value} {s : Spec Float}
    (h : IsSpecOf totalOps entry s) : Options.namedKind? entry.1 = some s.kind := by
  obtain ⟨name, hname, hkind⟩ := h.kind
  rw [Options.namedKind?, hname]
  exact hkind

/-- The kinds that the keys of the operations name. -/
def namedKinds (options : Options) : List (Option Kind) :=
  options.entries.map fun entry => namedKind? entry.1

theorem namedKinds_eq {options : Options} {c : Settings Float} (h : options.settings = .ok c) :
    options.namedKinds = (c.operations.map Spec.kind).map some := by
  have hspecs := (isReadAs_of_settings h).operations
  rw [namedKinds, List.map_map, ← List.forall₂_eq_eq_eq, List.forall₂_map_left_iff,
    List.forall₂_map_right_iff]
  exact (forall₂_isSpecOf hspecs).imp fun entry s hs => hs.namedKind?

/-- Kinds are distinct just where the keys name distinct kinds; then every operation is the one
that is found for its kind, and no other is counted towards its limit. -/
theorem nodup_kinds_iff {options : Options} {c : Settings Float} (h : options.settings = .ok c) :
    ((c.operations.map Spec.kind).Nodup ↔ options.namedKinds.Nodup) ∧
      (options.namedKinds.Nodup → ∀ s ∈ c.operations, c.spec? s.kind = some s ∧
        (∀ d ∈ c.operations, d.kind = s.kind → d = s) ∧
        ∀ {ρ : Type} [RandomSource ρ] (calls : List (Selector.Call Float ρ)),
          ∀ limit ∈ s.maxCount,
          (Selector.selectAll c.operations calls .empty).1.countP (Selector.gives s.kind) ≤
            limit.toNat) := by
  have hdistinct : options.namedKinds.Nodup ↔ (c.operations.map Spec.kind).Nodup := by
    rw [namedKinds_eq h, List.nodup_map_iff (Option.some_injective Kind)]
  refine ⟨hdistinct.symm, fun hnamed s hs => ?_⟩
  have hnodup := hdistinct.mp hnamed
  have honly : ∀ d ∈ c.operations, d.kind = s.kind → d = s :=
    fun d hd hkind => List.inj_on_of_nodup_map hnodup hd hs hkind
  refine ⟨?found, honly, ?counted⟩
  case found =>
    rw [Settings.spec?]
    cases hd : c.operations.find? (fun d => decide (d.kind = s.kind)) with
    | none => exact absurd (decide_eq_true rfl) (List.find?_eq_none.mp hd s hs)
    | some d =>
        have hkind : d.kind = s.kind := by simpa using List.find?_some hd
        rw [honly d (List.mem_of_find?_eq_some hd) hkind]
  case counted =>
    intro ρ _ calls limit hlimit
    have hle : (Selector.selectAll c.operations calls .empty).2.count s.kind ≤ limit.toNat :=
      Selector.count_selectAll_le hnodup hs hlimit calls (Nat.zero_le _)
    rw [Selector.count_selectAll] at hle
    exact Nat.le_trans (Nat.le_add_left _ _) hle

/-- Two keys that differ in case only. -/
def twice : Options :=
  [(.text "operations", .map [(.text "create", .int 40), (.text "CREATE", .int 60)])]

/-- They are accepted, and the second operation is never found. -/
theorem twice_not_distinct : ∃ c, twice.settings = .ok c ∧ ¬ (c.operations.map Spec.kind).Nodup ∧
    ∃ s ∈ c.operations, c.spec? s.kind ≠ some s := by
  have hread : (twice.settings.toOption.map fun c => (c.operations, c.spec? .create)) =
      some ([⟨.create, 40.0, .constant 1.0, none⟩, ⟨.create, 60.0, .constant 1.0, none⟩],
        some ⟨.create, 40.0, .constant 1.0, none⟩) := by
    decide +kernel
  obtain ⟨c, hc, hfacts⟩ := Option.map_eq_some_iff.mp hread
  obtain ⟨hspecs, hfound⟩ := Prod.mk.inj hfacts
  refine ⟨c, eq_ok_of_toOption hc, ?_, ⟨.create, 60.0, .constant 1.0, none⟩, ?_, ?_⟩
  · rw [hspecs]
    decide
  · rw [hspecs]
    decide +kernel
  · rw [hfound]
    decide +kernel

/-- Keys of several sorts of case that name three kinds. -/
theorem nodup_kinds_varied : ∃ c, varied.settings = .ok c ∧ (c.operations.map Spec.kind).Nodup ∧
    ∀ s ∈ c.operations, c.spec? s.kind = some s := by
  have hread : varied.settings.toOption.isSome := by decide +kernel
  obtain ⟨c, hc⟩ := Option.isSome_iff_exists.mp hread
  have hc := eq_ok_of_toOption hc
  obtain ⟨hiff, hfound⟩ := nodup_kinds_iff hc
  have hnamed : varied.namedKinds.Nodup := by decide +kernel
  exact ⟨c, hc, hiff.mpr hnamed, fun s hs => (hfound hnamed s hs).1⟩

end StorageLoad.Options
