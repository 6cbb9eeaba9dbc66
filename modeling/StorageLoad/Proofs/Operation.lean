import StorageLoad.Operation
import StorageLoad.Proofs.Journal
import StorageLoad.Proofs.Literal
import StorageLoad.Proofs.Segment

/-!
What operations write into the journal: what they ask of the storage service, their sleeps, and
the factors they have seen settle.  Whatever they are answered, they call for files and
directories of their namespace only, with segments, lengths and factors of the configured ranges,
and sleep as long as is configured (`does_run`).
-/

namespace StorageLoad

/-- An event that an operation brings about. -/
def Event.IsOfOperation : Event → Prop
  | asked _ => True
  | slept _ => True
  | settled .. => True
  | _ => False

open Segment

namespace Namespace

def IsFile (s : Namespace) (p : Path) : Prop :=
  ∃ number < s.files, p = s.file number

def IsDirectory (s : Namespace) (p : Path) : Prop :=
  ∃ number < s.directories, p = s.directory number

variable {ρ : Type} [RandomSource ρ] {s : Namespace} {r : ρ} {p : Path}

theorem exists_of_map_integerText {n : Int} {q : Path}
    (h : (integerText n).map (fun _ => q) = .ok p) : p = q := by
  cases htext : integerText n with
  | error fault =>
      rw [htext] at h
      cases h
  | ok text =>
      rw [htext] at h
      exact (Except.ok.inj h).symm

theorem isFile_of_chooseFile (h : (s.chooseFile r).1 = .ok p) : s.IsFile p := by
  have hlt := RandomSource.below_lt s.files_pos r
  rw [chooseFile] at h
  generalize RandomSource.below s.files r = drawn at h hlt
  obtain ⟨number, r'⟩ := drawn
  dsimp only at h
  exact ⟨number, hlt, exists_of_map_integerText h⟩

theorem isDirectory_of_chooseDirectory (h : (s.chooseDirectory r).1 = .ok p) :
    s.IsDirectory p := by
  have hlt := RandomSource.below_lt s.directories_pos r
  rw [chooseDirectory] at h
  generalize RandomSource.below s.directories r = drawn at h hlt
  obtain ⟨number, r'⟩ := drawn
  dsimp only at h
  exact ⟨number, hlt, exists_of_map_integerText h⟩

theorem isOversized_of_lt {number bound : Nat} (hbound : bound ≤ 10 ^ digitLimit)
    (h : number < bound) :
    Value.isOversized number = false :=
  decide_eq_false (Nat.not_le.mpr (Nat.lt_of_lt_of_le h hbound))

theorem exists_chooseFile (hfiles : s.files ≤ 10 ^ digitLimit) (r : ρ) :
    ∃ q, (s.chooseFile r).1 = .ok q ∧ s.IsFile q := by
  have hlt := RandomSource.below_lt s.files_pos r
  rw [chooseFile]
  generalize RandomSource.below s.files r = drawn at hlt ⊢
  obtain ⟨number, r'⟩ := drawn
  dsimp only
  rw [integerText, isOversized_of_lt hfiles hlt]
  exact ⟨_, rfl, number, hlt, rfl⟩

theorem directories_le (s : Namespace) : s.directories ≤ s.files := by
  have hfiles := s.files_pos
  have hsize := s.dirSize_pos
  apply Nat.div_le_of_le_mul
  calc
    s.files + s.dirSize - 1 ≤ s.files + (s.dirSize - 1) := by omega
    _ ≤ s.files + (s.dirSize - 1) * s.files :=
        Nat.add_le_add_left (Nat.le_mul_of_pos_right _ hfiles) _
    _ = s.dirSize * s.files := by
        rw [Nat.sub_mul, Nat.one_mul, Nat.add_sub_cancel' (Nat.le_mul_of_pos_left _ hsize)]

theorem exists_chooseDirectory (hfiles : s.files ≤ 10 ^ digitLimit) (r : ρ) :
    ∃ q, (s.chooseDirectory r).1 = .ok q ∧ s.IsDirectory q := by
  have hlt := RandomSource.below_lt s.directories_pos r
  have hbound := isOversized_of_lt (Nat.le_trans s.directories_le hfiles) hlt
  rw [chooseDirectory]
  generalize RandomSource.below s.directories r = drawn at hlt hbound ⊢
  obtain ⟨number, r'⟩ := drawn
  dsimp only
  rw [integerText, hbound]
  exact ⟨_, rfl, number, hlt, rfl⟩

end Namespace

/-- The calls that operations make with a configuration, in the namespace that it has. -/
def Settings.Asks {𝕜 : Type} (c : Settings 𝕜) (space : Namespace) : Request → Prop
  | .create path data replication blockSize => space.IsFile path ∧
      (∃ size ∈ c.writeSize, IsOfSize size data) ∧ (∃ n ∈ c.replication, replication = .int n) ∧
        ∃ n ∈ c.blockSize, blockSize = .int n
  | .append path data => space.IsFile path ∧ ∃ size ∈ c.appendSize, IsOfSize size data
  | .read path length => space.IsFile path ∧ ∃ n ∈ c.readSize, length = .int n
  | .delete path => space.IsFile path
  | .rename source target => space.IsFile source ∧ space.IsFile target
  | .setReplication path factor => space.IsFile path ∧ ∃ n ∈ c.replication, factor = .int n
  | .getReplication path => space.IsFile path
  | .listdir path => space.IsDirectory path
  | .mkdirs path => space.IsDirectory path
  | .isStored _ => False

namespace Operation

/-- The calls that an operation makes. -/
def methods : Kind → List Method
  | .create => [.create]
  | .append => [.append]
  | .delete => [.delete]
  | .rename => [.rename]
  | .setReplication => [.setReplication, .getReplication]
  | .read => [.read]
  | .ls => [.listdir]
  | .mkdir => [.mkdirs]
  | .sleep => []

/-- How long an operation sleeps: between two looks at a replication factor, or in a pause. -/
def SleepsFor {𝕜 : Type} (c : Settings 𝕜) (ms : Int) : Kind → Prop
  | .setReplication => ms = c.pollMs
  | .sleep => ∃ range ∈ c.pause, ms ∈ range
  | _ => False

/-- The events that an operation brings about with a configuration, in the namespace that it
has. -/
def Does {𝕜 : Type} (c : Settings 𝕜) (space : Namespace) (kind : Kind) : Event → Prop
  | .asked request => request.method ∈ methods kind ∧ c.Asks space request
  | .slept ms => SleepsFor c ms kind
  | .settled .. => True
  | _ => False

open StorageLoad.Action Namespace

variable {σ ρ 𝕜 : Type} [RandomSource ρ] [Surroundings σ] {c : Settings 𝕜} {space : Namespace}

theorem does_create :
    (create c space : Action σ ρ (List Record)).AddsOnly (Does c space .create) := by
  refine addsOnly_drawOutcome_bind _ fun r path hpath => ?_
  refine addsOnly_draw_bind _ fun r => addsOnly_draw_bind _ fun r' =>
    addsOnly_draw_bind _ fun r'' => ?_
  refine addsOnly_drawOutcome_bind _ fun _ data hdata => ?_
  refine (addsOnly_ask ?_).bind fun written => ?_
  · exact ⟨List.mem_cons_self, isFile_of_chooseFile hpath,
      ⟨_, c.writeSize.draw_mem r, _, _, _, hdata⟩,
      ⟨_, c.replication.draw_mem r', rfl⟩, _, c.blockSize.draw_mem r'', rfl⟩
  · exact (addsOnly_liftNumber _).bind fun _ => addsOnly_pure _

theorem does_append :
    (append c space : Action σ ρ (List Record)).AddsOnly (Does c space .append) := by
  refine addsOnly_drawOutcome_bind _ fun r path hpath => ?_
  refine addsOnly_draw_bind _ fun r => addsOnly_drawOutcome_bind _ fun _ data hdata => ?_
  refine (addsOnly_ask ?_).bind fun written => ?_
  · exact ⟨List.mem_cons_self, isFile_of_chooseFile hpath, _, c.appendSize.draw_mem r, _,
      _, _, hdata⟩
  · exact (addsOnly_liftNumber _).bind fun _ => addsOnly_pure _

theorem does_delete :
    (delete space : Action σ ρ (List Record)).AddsOnly (Does c space .delete) := by
  refine addsOnly_drawOutcome_bind _ fun r path hpath => ?_
  exact (addsOnly_ask ⟨List.mem_cons_self, isFile_of_chooseFile hpath⟩).bind fun _ =>
    addsOnly_pure _

theorem does_rename :
    (rename space : Action σ ρ (List Record)).AddsOnly (Does c space .rename) := by
  refine addsOnly_drawOutcome_bind _ fun r source hsource => ?_
  refine addsOnly_drawOutcome_bind _ fun r target htarget => ?_
  refine (addsOnly_ask ?_).bind fun _ => addsOnly_pure _
  exact ⟨List.mem_cons_self, isFile_of_chooseFile hsource, isFile_of_chooseFile htarget⟩

theorem does_read :
    (read c space : Action σ ρ (List Record)).AddsOnly (Does c space .read) := by
  refine addsOnly_drawOutcome_bind _ fun _ path hpath => addsOnly_draw_bind _ fun r => ?_
  refine (addsOnly_ask ?_).bind fun answer => ?_
  · exact ⟨List.mem_cons_self, isFile_of_chooseFile hpath, _, c.readSize.draw_mem r, rfl⟩
  · exact (addsOnly_lift _).bind fun _ => addsOnly_pure _

theorem does_ls :
    (ls space : Action σ ρ (List Record)).AddsOnly (Does c space .ls) := by
  refine addsOnly_drawOutcome_bind _ fun r path hpath => ?_
  refine (addsOnly_ask ⟨List.mem_cons_self, isDirectory_of_chooseDirectory hpath⟩).bind
    fun entries => ?_
  exact (addsOnly_liftShape _).bind fun _ => addsOnly_pure _

theorem does_mkdir :
    (mkdir space : Action σ ρ (List Record)).AddsOnly (Does c space .mkdir) := by
  refine addsOnly_drawOutcome_bind _ fun r path hpath => ?_
  refine (addsOnly_ask ?_).bind fun _ => addsOnly_pure _
  exact ⟨List.mem_cons_self, isDirectory_of_chooseDirectory hpath⟩

/-- The events of a wait for a path's replicas. -/
def Awaits (c : Settings 𝕜) (path : Path) : Event → Prop
  | .asked request => request = .getReplication path
  | .slept ms => ms = c.pollMs
  | .settled .. => True
  | _ => False

theorem Awaits.does {path : Path} (hpath : space.IsFile path) {e : Event} (h : Awaits c path e) :
    Does c space .setReplication e := by
  cases e with
  | asked request =>
      obtain rfl : request = .getReplication path := h
      exact ⟨List.mem_cons_of_mem _ List.mem_cons_self, hpath⟩
  | slept ms => exact h
  | settled path replicas ms => trivial
  | _ => exact h.elim

omit [RandomSource ρ] in
theorem awaits_awaitReplicas (path : Path) (replicas start : Int) (polls : Nat) :
    (awaitReplicas c path replicas start polls : Action σ ρ Unit).AddsOnly (Awaits c path) := by
  induction polls with
  | zero => exact addsOnly_ofCourse (Course.adds_endless _)
  | succ polls ih =>
      rw [awaitReplicas]
      refine AddsOnly.bind (addsOnly_ask rfl) fun factor => ?_
      split
      · exact (addsOnly_elapsed start).bind fun _ => addsOnly_note trivial
      · refine (addsOnly_elapsed start).bind fun elapsed => ?_
        split
        · exact addsOnly_throw _
        · exact AddsOnly.bind (addsOnly_sleep rfl) fun _ => ih

theorem does_setReplication (polls : Nat) :
    (setReplication polls c space : Action σ ρ (List Record)).AddsOnly
      (Does c space .setReplication) := by
  refine addsOnly_drawOutcome_bind _ fun _ path hpath => addsOnly_draw_bind _ fun r => ?_
  have hfile := isFile_of_chooseFile hpath
  refine (addsOnly_ask ⟨List.mem_cons_self, hfile, _, c.replication.draw_mem r, rfl⟩).bind
    fun done => ?_
  split
  · refine addsOnly_now.bind fun start => ?_
    refine AddsOnly.bind ?_ fun _ => addsOnly_pure _
    apply Course.Adds.mono (awaits_awaitReplicas path _ start polls)
    exact fun _ _ h e he => (h e he).does hfile
  · exact addsOnly_pure _

theorem does_pause :
    (pause c : Action σ ρ (List Record)).AddsOnly (Does c space .sleep) := by
  rw [pause]
  cases hpause : c.pause with
  | none => exact addsOnly_throw _
  | some range =>
      refine addsOnly_draw_bind _ fun r => ?_
      refine addsOnly_now.bind fun start => ?_
      refine (addsOnly_sleep ⟨range, hpause, range.draw_mem r⟩).bind fun _ => ?_
      exact (addsOnly_elapsed start).bind fun _ => addsOnly_pure _

theorem does_perform (polls : Nat) (kind : Kind) :
    (perform polls c space kind : Action σ ρ (List Record)).AddsOnly (Does c space kind) := by
  cases kind with
  | create => exact does_create
  | append => exact does_append
  | delete => exact does_delete
  | rename => exact does_rename
  | setReplication => exact does_setReplication polls
  | read => exact does_read
  | ls => exact does_ls
  | mkdir => exact does_mkdir
  | sleep => exact does_pause

theorem does_run_of_forall (hspace : ∀ space', c.space = .ok space' → space' = space)
    (polls : Nat) (kind : Kind) :
    (run polls c kind : Action σ ρ (List Record)).AddsOnly
    (Does c space kind) := by
  rw [run]
  split
  · rename_i hkind
    rw [hkind]
    exact does_pause
  · refine addsOnly_lift_bind _ fun space' hspace' => ?_
    obtain rfl := hspace space' hspace'
    refine addsOnly_now.bind fun start => ?_
    refine (addsOnly_ofCourse (does_perform polls kind)).bind fun answer => ?_
    cases answer with
    | ok outputs => exact (addsOnly_elapsed start).bind fun _ => addsOnly_pure _
    | error fault =>
        dsimp only
        split
        · exact (addsOnly_elapsed start).bind fun _ => addsOnly_pure _
        · exact addsOnly_throw _

theorem does_run (hspace : c.space = .ok space) (polls : Nat) (kind : Kind) :
    (run polls c kind : Action σ ρ (List Record)).AddsOnly (Does c space kind) :=
  does_run_of_forall (fun _ h => Except.ok.inj (h.symm.trans hspace)) polls kind

theorem addsOnly_run (polls : Nat) (c : Settings 𝕜) (kind : Kind) :
    (run polls c kind : Action σ ρ (List Record)).AddsOnly Event.IsOfOperation := by
  -- Where there is no namespace, any one will do: no operation gets to a call.
  obtain ⟨space, hspace⟩ : ∃ space, ∀ space', c.space = .ok space' → space' = space := by
    cases c.space with
    | ok space => exact ⟨space, fun space' h => (Except.ok.inj h).symm⟩
    | error fault => exact ⟨⟨[], 1, 1, by decide, by decide⟩, fun space' h => by cases h⟩
  apply Course.Adds.mono (does_run_of_forall hspace polls kind)
  intro answer events hdoes e he
  have hown := hdoes e he
  cases e with
  | asked request => trivial
  | slept ms => trivial
  | settled path replicas ms => trivial
  | _ => exact hown.elim

end Operation

end StorageLoad
