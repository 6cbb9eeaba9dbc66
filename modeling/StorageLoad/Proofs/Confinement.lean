import Mathlib.Algebra.Order.Floor.Div
import StorageLoad.Proofs.Config.WellFormed
import StorageLoad.Proofs.Demand
import StorageLoad.Proofs.Interruption

/-!
The load of a worker is confined to what is configured.  Its calls are for files and directories
below the base directory, its numbers are drawn from the ranges, it looks at a replication factor
only after it has asked for it, and sleeps for as long as the operation may that it runs
(`isConfined_of_settings`).
-/

namespace StorageLoad

/-- The namespace is laid out as a configuration says. -/
structure Settings.IsLaidOut {𝕜 : Type} (c : Settings 𝕜) (space : Namespace) : Prop where
  space_eq : c.space = .ok space
  baseDir : space.baseDir = Path.ofString c.baseDir
  files : (space.files : Int) = c.fileCount
  dirSize : (space.dirSize : Int) = c.dirSize
  directories : space.directories = space.files ⌈/⌉ space.dirSize

theorem Settings.isLaidOut_of_space {𝕜 : Type} {c : Settings 𝕜} {space : Namespace}
    (h : c.space = .ok space) : c.IsLaidOut space := by
  obtain ⟨hbase, hfiles, hsize⟩ := Namespace.of_ofSizes h
  exact ⟨h, hbase, hfiles, hsize, rfl⟩

namespace Segment

/-- One segment, of a size, but with its header at least. -/
def IsOne (size : Int) (data : Bytes) : Prop :=
  (∃ seed < 2 ^ 63, ∃ length < 2 ^ 64, data = header seed length ++ payload seed length) ∧
    data.length = max headerLength size.toNat

theorem IsOfSize.isOne {size : Int} {data : Bytes} (h : IsOfSize size data) :
    IsOne size data := by
  obtain ⟨ρ, _, r, hdraw⟩ := h
  obtain ⟨seed, hseed, length, hlength, -, hdata⟩ := exists_of_draw hdraw
  exact ⟨⟨seed, hseed, length, hlength, hdata⟩, length_of_draw hdraw⟩

end Segment

namespace Worker

variable {σ ρ τ 𝕜 : Type} {c : Settings 𝕜} {space : Namespace}

/-- The load of a run is confined to a namespace and to the configured ranges. -/
structure IsConfined (c : Settings 𝕜) (space : Namespace) (a : Account σ) : Prop where
  asks : ∀ request ∈ a.calls, c.Asks space request
  created : ∀ path data replication blockSize, .create path data replication blockSize ∈ a.calls →
    ∃ size ∈ c.writeSize, Segment.IsOne size data
  appended : ∀ path data, .append path data ∈ a.calls → ∃ size ∈ c.appendSize,
    Segment.IsOne size data
  follows : Event.IsConsequent c a.events

theorem isConfined_of_run [RandomSource ρ] [Surroundings σ] (hspace : c.space = .ok space)
    {policy : Policy τ ρ} {limit : Nat} {key value : String} {world : σ} {random : ρ}
    {a : Account σ} (h : accountWith policy limit c key value world random = some a) :
    IsConfined c space a where
  asks := asks_of_run hspace h
  created := by
    intro path data replication blockSize hcall
    obtain ⟨-, ⟨size, hsize, hdata⟩, -⟩ := asks_of_run hspace h _ hcall
    exact ⟨size, hsize, hdata.isOne⟩
  appended := by
    intro path data hcall
    obtain ⟨-, size, hsize, hdata⟩ := asks_of_run hspace h _ hcall
    exact ⟨size, hsize, hdata.isOne⟩
  follows := isConsequent_of_run hspace h

/-- Whatever options are accepted, and whatever selects the operations and the storage service
answers, the load of every run is confined to the configured namespace and ranges.  The same is
true of every run that is broken off: it then ends, whatever it would have done otherwise. -/
theorem isConfined_of_settings {options : Options} {c : Settings Float}
    (h : options.settings = .ok c) :
    ∃ space, c.IsLaidOut space ∧
      ∀ {σ ρ τ : Type} [RandomSource ρ] [Surroundings σ] (policy : Policy τ ρ)
        (key value : String) (world : σ) (random : ρ),
        (∀ limit a, accountWith policy limit c key value world random = some a →
          IsConfined c space a) ∧ ∀ dealings, ∃ a, accountWith policy (dealings + 1) c key value
            (Curtailed.after c dealings world) random = some a ∧ IsConfined c space a := by
  obtain ⟨space, hspace⟩ := (Options.isWellFormed_of_settings h).1.space
  refine ⟨space, Settings.isLaidOut_of_space hspace, ?_⟩
  intro σ ρ τ _ _ policy key value world random
  refine ⟨fun limit a ha => isConfined_of_run hspace ha, fun dealings => ?_⟩
  obtain ⟨a, ha⟩ := exists_curtailed policy c key value world random dealings
  exact ⟨a, ha, isConfined_of_run hspace ha⟩

/-- A file is made, and then replicas of one are waited for that never come; four milliseconds of
pause follow on what does not fail. -/
def paced : Options :=
  [(.text "duration", .real 0.02), (.text "sleep", .list [.int 4, .int 4]),
    (.text "files", .int 3), (.text "dir_size", .int 2), (.text "write_size", .int 16),
    (.text "replication", .list [.int 2, .int 2]), (.text "replication_poll", .int 1),
    (.text "replication_timeout", .int 3),
    (.text "operations", .map [(.text "create", .map [(.text "max_count", .int 1)]),
      (.text "set_replication", .map [(.text "max_count", .int 1)])])]

theorem isConfined_paced : ∃ c space a, paced.settings = .ok c ∧ c.IsLaidOut space ∧
    account 20 c "k" "v" (⟨0⟩ : Obliging) (⟨⟩ : Zeros) = some a ∧
    a.calls.map Request.method = [.create, .setReplication, .getReplication, .getReplication] ∧
    a.sleeps = [4, 1] ∧ IsConfined c space a := by
  have hrun : (paced.settings.toOption.bind fun c =>
      (account 20 c "k" "v" (⟨0⟩ : Obliging) (⟨⟩ : Zeros)).map fun a =>
        (a.calls.map Request.method, a.sleeps)) =
      some ([.create, .setReplication, .getReplication, .getReplication], [4, 1]) := by
    decide +kernel
  obtain ⟨c, hc, hrun⟩ := Option.bind_eq_some_iff.mp hrun
  obtain ⟨a, ha, hfacts⟩ := Option.map_eq_some_iff.mp hrun
  obtain ⟨hcalls, hsleeps⟩ := Prod.mk.inj hfacts
  replace hc := Outcome.eq_ok_of_toOption hc
  obtain ⟨space, hlaid, hruns⟩ := isConfined_of_settings hc
  obtain ⟨hends, -⟩ := hruns (weighted c) "k" "v" (⟨0⟩ : Obliging) (⟨⟩ : Zeros)
  exact ⟨c, space, a, hc, hlaid, ha, hcalls, hsleeps, hends 20 a ha⟩

end Worker

end StorageLoad
