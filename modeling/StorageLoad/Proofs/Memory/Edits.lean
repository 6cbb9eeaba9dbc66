import Mathlib.Logic.Relation
import StorageLoad.Proofs.History
import StorageLoad.Proofs.Memory.Entries

/-!
What a call can do to the table of the service in memory, said once for every property of the
table.  A call that ends has made edits one after the other, each at one place
(`edits_of_answer`), so that what each edit keeps, every history keeps (`keeps_of_serve`).
-/

namespace StorageLoad

/-- The bytes that a call writes. -/
def Request.written? : Request → Option Bytes
  | create _ data _ _ => some data
  | append _ data => some data
  | _ => none

namespace Memory

variable {W : Bytes → Prop} {m m' : Memory}

/-- A change at one place of the table.  Data that was not stored before is of a sort. -/
inductive Edit (W : Bytes → Prop) (m : Memory) : Memory → Prop
  | erase (p : Path) : Edit W m (m.erase p)
  | move (source target : Path) : Edit W m (m.move source target)
  | directory (p : Path) : Edit W m (m.put p Entry.directory)
  | file (p : Path) {data : Bytes} (h : W data) (replication blockSize : Value) :
      Edit W m (m.put p (Entry.file data replication blockSize))
  | append (p : Path) {e : Entry} (he : m.file p = .ok e) {data : Bytes} (h : W data) :
      Edit W m (m.put p { e with data := e.data ++ data })
  | keep (p : Path) {e e' : Entry} (he : m.file p = .ok e) (hdata : e'.data = e.data) :
      Edit W m (m.put p e')

/-- Changes made one after the other. -/
def Edits (W : Bytes → Prop) : Memory → Memory → Prop :=
  Relation.ReflTransGen (Edit W)

namespace Edits

theorem refl : Edits W m m :=
  Relation.ReflTransGen.refl

theorem then_edit {n : Memory} (h : Edits W m m') (hedit : Edit W m' n) : Edits W m n :=
  Relation.ReflTransGen.tail h hedit

theorem foldl (h : Edits W m m') {step : Memory → Path → Memory}
    (hstep : ∀ m p, Edit W m (step m p)) (ps : List Path) : Edits W m (ps.foldl step m') :=
  foldl_induction (Edits W m) (fun n p hn => hn.then_edit (hstep n p)) ps h

theorem keeps (h : Edits W m m') {inv : Memory → Prop}
    (hstep : ∀ m m', inv m → Edit W m m' → inv m') (hm : inv m) : inv m' := by
  induction h with
  | refl => exact hm
  | tail _ hedit ih => exact hstep _ _ ih hedit

end Edits

section Calls

theorem edits_of_makeDirectories {p : Path} (h : m.makeDirectories p = some (.ok m')) :
    Edits W m m' := by
  rw [makeDirectories] at h
  split at h
  · cases h
  · split at h
    · cases h
    · split at h
      · split at h
        · obtain rfl := Except.ok.inj (Option.some.inj h)
          exact Edits.refl.foldl (fun m p => .directory p) _
        · cases h
      · cases h

theorem edits_of_mkdirs {p : Path} {result : Result} (h : m.mkdirs p = some result) :
    Edits W m result.2 := by
  rw [mkdirs] at h
  split at h
  · cases h
  · cases h
    exact Edits.refl
  · rename_i hmake
    cases h
    exact edits_of_makeDirectories hmake

theorem edits_of_create {p : Path} {data : Bytes} (hdata : W data) {replication blockSize : Value}
    {result : Result} (h : m.create p data replication blockSize = some result) :
    Edits W m result.2 := by
  rw [create] at h
  split at h
  · cases h
    exact Edits.refl
  · split at h
    · cases h
    · cases h
      exact Edits.refl
    · rename_i hmake
      cases h
      exact (edits_of_makeDirectories hmake).then_edit (.file p hdata replication blockSize)

theorem edits_of_rename {source target : Path} {result : Result}
    (h : m.rename source target = some result) :
    Edits W m result.2 := by
  rw [rename] at h
  split at h
  · cases h
    exact Edits.refl
  · split at h
    · cases h
      exact Edits.refl
    · split at h
      · cases h
      · cases h
        exact Edits.refl
      · rename_i grown hmake
        have hmoved : Edits W m ((grown.children source).foldl
            (fun m child => m.move child (target ++ child.drop source.length)) grown) :=
          (edits_of_makeDirectories hmake).foldl (fun m child => .move child _) _
        dsimp only at h
        split at h
        · cases h
          exact hmoved.then_edit (.move source target)
        · cases h
          exact hmoved

theorem edits_delete (p : Path) : Edits W m (m.delete p).2 := by
  have hrest : Edits W m ((m.children p).foldl erase m) :=
    Edits.refl.foldl (fun m q => .erase q) _
  rw [delete]
  split
  · exact Edits.refl
  · dsimp only
    split
    · exact hrest.then_edit (.erase p)
    · exact hrest

theorem edits_append (p : Path) {data : Bytes} (hdata : W data) :
    Edits W m (m.append p data).2 := by
  rw [append]
  cases he : m.file p with
  | error fault => exact Edits.refl
  | ok e => exact Edits.refl.then_edit (.append p he hdata)

theorem edits_setReplication (p : Path) (factor : Value) :
    Edits W m (m.setReplication p factor).2 := by
  rw [setReplication]
  cases he : m.file p with
  | error fault => exact Edits.refl
  | ok e => exact Edits.refl.then_edit (.keep p he rfl)

theorem Entry.data_polled (e : Entry) : e.polled.data = e.data := by
  rw [polled]
  split <;> rfl

theorem Entry.isDirectory_polled (e : Entry) : e.polled.isDirectory = e.isDirectory := by
  rw [polled]
  split <;> rfl

theorem edits_getReplication (p : Path) : Edits W m (m.getReplication p).2 := by
  rw [getReplication]
  cases he : m.file p with
  | error fault => exact Edits.refl
  | ok e => exact Edits.refl.then_edit (.keep p he e.data_polled)

/-- Every call that ends makes nothing but edits, and only those that write bring new data. -/
theorem edits_of_answer {request : Request}
    (hwritten : ∀ data, request.written? = some data → W data) {result : Result}
    (h : m.answer request = some result) : Edits W m result.2 := by
  cases request with
  | create path data replication blockSize => exact edits_of_create (hwritten data rfl) h
  | append path data =>
      cases h
      exact edits_append path (hwritten data rfl)
  | read path length =>
      cases h
      rw [read_snd]
      exact Edits.refl
  | delete path =>
      cases h
      exact edits_delete path
  | rename source target => exact edits_of_rename h
  | setReplication path factor =>
      cases h
      exact edits_setReplication path factor
  | getReplication path =>
      cases h
      exact edits_getReplication path
  | listdir path =>
      cases h
      rw [listdir_snd]
      exact Edits.refl
  | mkdirs path => exact edits_of_mkdirs h
  | isStored path =>
      cases h
      exact Edits.refl

end Calls

/-- What every edit keeps, a history of calls keeps, if its edits bring no data but what its calls
write. -/
theorem keeps_of_serve {inv : Memory → Prop} {requests : List Request}
    (hstep : ∀ m m', inv m →
      Edit (fun data => ∃ request ∈ requests, request.written? = some data) m m' → inv m')
    {answers : List (Except StoreFault Reply)} (h : Storage.serve requests m = some (answers, m'))
    (hm : inv m) : inv m' := by
  refine Storage.serve_induction inv (· ∈ requests) ?_ (fun _ hr => hr) h hm
  intro request b answer b' hb hrequest hanswer
  have hedits : Edits (fun data => ∃ request ∈ requests, request.written? = some data) b b' :=
    edits_of_answer (fun data hdata => ⟨request, hrequest, hdata⟩) hanswer
  exact hedits.keeps hstep hb

theorem IsSorted.of_edit {W : Bytes → Prop} (h : m.IsSorted) (hedit : Edit W m m') :
    m'.IsSorted := by
  cases hedit with
  | erase p => exact h.erase p
  | move source target => exact h.move source target
  | directory p => exact h.put p _
  | file p => exact h.put p _
  | append p => exact h.put p _
  | keep p => exact h.put p _

theorem isSorted_of_serve {lag : Int} {requests : List Request}
    {answers : List (Except StoreFault Reply)}
    (h : Storage.serve requests (fresh lag) = some (answers, m)) : m.IsSorted :=
  keeps_of_serve (fun _ _ => IsSorted.of_edit) h (isSorted_fresh lag)

end Memory

end StorageLoad
