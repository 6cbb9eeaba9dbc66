import StorageLoad.Operation
import StorageLoad.Proofs.Config.Entries
import StorageLoad.Proofs.Config.Reading
import StorageLoad.Proofs.Namespace

/-!
Configurations that are accepted are well formed (`isWellFormed_of_settings`): every number is in
its bounds, every range has its ends in order, and whatever operation is selected can be set up.
-/

namespace StorageLoad

namespace Settings

/-- All ranges of a configuration. -/
def ranges {𝕜 : Type} (c : Settings 𝕜) : List Range :=
  c.pause.toList ++ [c.blockSize, c.writeSize, c.appendSize, c.readSize, c.replication]

/-- A configuration whose numbers are all in their bounds, and which never fails to be set up. -/
structure IsWellFormed (c : Settings Float) : Prop extends c.IsValid where
  durationMs : 0 ≤ c.durationMs
  ordered : ∀ range ∈ c.ranges, range.lower ≤ range.upper
  space : ∃ space, c.space = .ok space
  ready : ∀ s ∈ c.operations, Operation.ready c s.kind = .ok ()
  readyToPause : c.pause.isSome → Operation.ready c .sleep = .ok ()

end Settings

namespace Options

open Outcome Config

theorem nonneg_of_durationMs {options : Options} {n : Int} (h : options.durationMs = .ok n) :
    0 ≤ n := by
  obtain ⟨seconds, hseconds, h⟩ := exists_of_bind h
  have hpermitted := (of_number hseconds).2
  have hround : Double.toInt Rounding.halfEven (seconds * 1000.0) = .ok n := eq_ok_of_mapError h
  apply Double.nonneg_of_toInt _ _ hround
  · intro den
    simp [Rounding.halfEven]
  · exact Double.isAmount_mul hpermitted.isAmount Double.isAmount_thousand
      ((Double.isFinite_iff _).mp hpermitted.isFinite) Double.isNumber_thousand

/-- Whatever options are accepted, the configuration is well formed, and its operations are those
of the entries, one for each. -/
theorem isWellFormed_of_settings {options : Options} {c : Settings Float}
    (h : options.settings = .ok c) :
    c.IsWellFormed ∧ List.Forall₂ (IsSpecOf c.totalOps) options.entries c.operations := by
  have hread := isReadAs_of_settings h
  have hvalid := isValid_of_settings h
  obtain ⟨space, hspace⟩ : ∃ space, c.space = .ok space :=
    Namespace.exists_ofSizes hvalid.fileCount hvalid.dirSize
  refine ⟨⟨hvalid, nonneg_of_durationMs hread.durationMs, fun range _ => range.ordered,
    ⟨space, hspace⟩, ?_, ?_⟩, forall₂_isSpecOf hread.operations⟩
  · intro s hs
    rw [Operation.ready, if_neg (hvalid.kinds s hs), hspace]
    rfl
  · intro hpause
    rw [Operation.ready, if_pos rfl, Option.isNone_eq_false_iff.mpr hpause]
    rfl

/-- Options of every sort: a text, a fraction, pairs, and operations in any case. -/
def varied : Options :=
  [(.text "duration", .text " 2.5 "), (.text "seed", .int (-7)), (.text "ops", .real 10.0),
    (.text "sleep", .text "1, 5"), (.text "block_size", .list [.text "1k", .text "2K"]),
    (.text "operations", .map [(.text "READ", .int 50),
      (.text "mkdir", .map [(.text "max_count", .text "3"), (.text "distribution", .text "beg")]),
      (.text "ls", .null)])]

theorem isWellFormed_varied : ∃ c, varied.settings = .ok c ∧ c.IsWellFormed ∧
    List.Forall₂ (IsSpecOf c.totalOps) varied.entries c.operations ∧ c.durationMs = 2500 ∧
    c.operations.map Spec.kind = [.read, .mkdir, .ls] ∧
    c.operations.map Spec.maxCount = [some 6, some 3, some 2] := by
  have hread : (varied.settings.toOption.map fun c => (c.durationMs, c.operations.map Spec.kind,
      c.operations.map Spec.maxCount)) =
        some (2500, [.read, .mkdir, .ls], [some 6, some 3, some 2]) := by
    decide +kernel
  obtain ⟨c, hc, hfacts⟩ := Option.map_eq_some_iff.mp hread
  obtain ⟨hduration, hfacts⟩ := Prod.mk.inj hfacts
  obtain ⟨hkinds, hlimits⟩ := Prod.mk.inj hfacts
  have hc := eq_ok_of_toOption hc
  obtain ⟨hwell, hspecs⟩ := isWellFormed_of_settings hc
  exact ⟨c, hc, hwell, hspecs, hduration, hkinds, hlimits⟩

end Options

end StorageLoad
