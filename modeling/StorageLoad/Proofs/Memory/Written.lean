import StorageLoad.Proofs.Memory.Edits
import StorageLoad.Proofs.Segment

/-!
What the files of the service in memory are made of.  Whatever is called, a file holds rows of
what was written by creating and appending, and so what is read of a service in which only drawn
segments are written can be verified (`verify_of_serve`).
-/

namespace StorageLoad

open Segment

namespace Memory

variable {W : Bytes → Prop}

/-- The data is a row of pieces of a sort. -/
def Entry.IsMadeOf (W : Bytes → Prop) (e : Entry) : Prop :=
  ∃ pieces : List Bytes, (∀ piece ∈ pieces, W piece) ∧ e.data = pieces.flatten

theorem Entry.isMadeOf_of_data {e : Entry} (h : e.data = []) : e.IsMadeOf W :=
  ⟨[], by simp, h⟩

theorem Entry.isMadeOf_file {data : Bytes} (h : W data) (replication blockSize : Value) :
    (Entry.file data replication blockSize).IsMadeOf W :=
  ⟨[data], by simpa using h, by simp [Entry.file]⟩

theorem Entry.IsMadeOf.append {e : Entry} (he : e.IsMadeOf W) {data : Bytes} (h : W data) :
    { e with data := e.data ++ data }.IsMadeOf W := by
  obtain ⟨pieces, hpieces, hdata⟩ := he
  refine ⟨pieces ++ [data], ?_, ?_⟩
  · intro piece hpiece
    rcases List.mem_append.mp hpiece with hmem | hmem
    · exact hpieces piece hmem
    · rwa [List.mem_singleton.mp hmem]
  · rw [List.flatten_append, List.flatten_singleton, hdata]

theorem Entry.IsMadeOf.of_data_eq {e e' : Entry} (he : e.IsMadeOf W) (h : e'.data = e.data) :
    e'.IsMadeOf W := by
  rwa [IsMadeOf, h]

/-- Everything stored is made of pieces of a sort. -/
def HoldsOnly (W : Bytes → Prop) (m : Memory) : Prop :=
  ∀ p e, m.get? p = some e → e.IsMadeOf W

theorem holdsOnly_fresh (lag : Int) : (fresh lag).HoldsOnly W := by
  intro p e he
  rw [get?_fresh] at he
  split at he
  · cases he
    exact Entry.isMadeOf_of_data rfl
  · cases he

namespace HoldsOnly

variable {m m' : Memory}

theorem of_file (h : m.HoldsOnly W) {p : Path} {e : Entry} (he : m.file p = .ok e) :
    e.IsMadeOf W := by
  rw [file] at he
  split at he
  · rename_i d hd
    split at he
    · cases he
    · cases he
      exact h p e hd
  · cases he

theorem put (h : m.HoldsOnly W) (p : Path) {e : Entry} (he : e.IsMadeOf W) :
    (m.put p e).HoldsOnly W := by
  intro q d hd
  rw [get?_put] at hd
  split at hd
  · cases hd
    exact he
  · exact h q d hd

theorem erase (h : m.HoldsOnly W) (p : Path) : (m.erase p).HoldsOnly W := by
  intro q d hd
  rw [get?_erase] at hd
  split at hd
  · cases hd
  · exact h q d hd

theorem move (h : m.HoldsOnly W) (source target : Path) : (m.move source target).HoldsOnly W := by
  rw [Memory.move]
  split
  · exact h
  · rename_i e he
    exact (h.erase source).put target (h source e he)

theorem of_edit (h : m.HoldsOnly W) (hedit : Edit W m m') : m'.HoldsOnly W := by
  cases hedit with
  | erase p => exact h.erase p
  | move source target => exact h.move source target
  | directory p => exact h.put p (Entry.isMadeOf_of_data rfl)
  | file p hdata replication blockSize =>
      exact h.put p (Entry.isMadeOf_file hdata replication blockSize)
  | append p he hdata => exact h.put p ((h.of_file he).append hdata)
  | keep p he hdata => exact h.put p ((h.of_file he).of_data_eq hdata)

theorem answer (h : m.HoldsOnly W) {request : Request}
    (hwritten : ∀ data, request.written? = some data → W data) {result : Result}
    (hresult : m.answer request = some result) : result.2.HoldsOnly W :=
  (edits_of_answer hwritten hresult).keeps (fun _ _ => of_edit) h

end HoldsOnly

theorem holdsOnly_of_serve {lag : Int} {requests : List Request}
    {answers : List (Except StoreFault Reply)} {m : Memory}
    (h : Storage.serve requests (fresh lag) = some (answers, m)) :
    m.HoldsOnly fun piece => ∃ request ∈ requests, request.written? = some piece :=
  keeps_of_serve (fun _ _ => HoldsOnly.of_edit) h (holdsOnly_fresh lag)

theorem exists_file_of_read {m : Memory} {p : Path} {length : Value} {bytes : Bytes}
    (h : (m.read p length).1 = .ok (.bytes bytes)) : ∃ e, m.file p = .ok e ∧
    bytes <+: e.data := by
  rw [read] at h
  split at h
  · cases h
  · rename_i e he
    refine ⟨e, he, ?_⟩
    split at h
    · cases h
      exact List.prefix_rfl
    · cases h
      exact List.take_prefix _ _
    · cases h

/-- If nothing but drawn segments is written, whatever else is called, then what is read of a file
is accepted.  It is a cut of a row of segments that were written, and those before the cut are
counted as whole. -/
theorem verify_of_serve {lag : Int} {requests : List Request}
    (hdrawn : ∀ request ∈ requests, ∀ data, request.written? = some data → IsDrawn data)
    {answers : List (Except StoreFault Reply)} {m : Memory}
    (hserve : Storage.serve requests (fresh lag) = some (answers, m)) {p : Path} {length : Value}
    {bytes : Bytes} (hread : (m.read p length).1 = .ok (.bytes bytes)) :
    ∃ segments : List Bytes,
      (∀ segment ∈ segments, ∃ request ∈ requests, request.written? = some segment) ∧
      (m.read p .null).1 = .ok (.bytes segments.flatten) ∧ bytes <+: segments.flatten ∧
      verify bytes = .ok ⟨bytes.length, wholeWithin segments bytes.length,
        if CutsInside segments bytes.length then 1 else 0⟩ := by
  obtain ⟨e, hfile, hpre⟩ := exists_file_of_read hread
  obtain ⟨segments, hsegments, hdata⟩ := (holdsOnly_of_serve hserve).of_file hfile
  rw [hdata] at hpre
  refine ⟨segments, hsegments, ?_, hpre, ?_⟩
  · rw [read, hfile, ← hdata]
  · have hall : ∀ segment ∈ segments, IsDrawn segment := by
      intro segment hsegment
      obtain ⟨request, hrequest, hwritten⟩ := hsegments segment hsegment
      exact hdrawn request hrequest segment hwritten
    have hcut := verify_take_flatten hall hpre.length_le
    rwa [← List.prefix_iff_eq_take.mp hpre] at hcut

/-- The segment of twenty bytes that is drawn from zeros. -/
def zeroSegment : Bytes :=
  header 0 4 ++ payload 0 4

theorem isDrawn_zeroSegment : IsDrawn zeroSegment :=
  ⟨Zeros, inferInstance, ⟨⟩, 20, by decide, rfl⟩

/-- A file that is written with one segment and grows by the same one. -/
def twoWrites : List Request :=
  [.create ['/', 'f'] zeroSegment (.int 1) (.int 64), .append ['/', 'f'] zeroSegment]

/-- What is stored after the two writes. -/
def twoWritten : Memory :=
  let e := Entry.file zeroSegment (.int 1) (.int 64)
  ((fresh 0).put ['/', 'f'] e).put ['/', 'f'] { e with data := zeroSegment ++ zeroSegment }

theorem serve_twoWrites :
    Storage.serve twoWrites (fresh 0) =
      some ([.ok (.int zeroSegment.length), .ok (.int zeroSegment.length)], twoWritten) := by
  have hmake : (fresh 0).makeDirectories ['/'] = some (.ok (fresh 0)) := by
    rw [makeDirectories, Path.ancestors_slash]
    rfl
  have hcreate : (fresh 0).create ['/', 'f'] zeroSegment (.int 1) (.int 64) =
      some (.ok (.int zeroSegment.length),
        (fresh 0).put ['/', 'f'] (Entry.file zeroSegment (.int 1) (.int 64))) := by
    have hdirectory : Path.directory ['/', 'f'] = ['/'] := by decide
    rw [create, if_neg (by decide), hdirectory, hmake]
  exact Storage.serve_cons hcreate rfl

theorem verify_of_serve_twoWrites :
    ∃ segments : List Bytes,
      (∀ segment ∈ segments, ∃ request ∈ twoWrites, request.written? = some segment) ∧
      (twoWritten.read ['/', 'f'] .null).1 = .ok (.bytes segments.flatten) ∧
      (zeroSegment ++ zeroSegment).take 25 <+: segments.flatten ∧
      verify ((zeroSegment ++ zeroSegment).take 25) =
        .ok ⟨((zeroSegment ++ zeroSegment).take 25).length,
          wholeWithin segments ((zeroSegment ++ zeroSegment).take 25).length,
          if CutsInside segments
            ((zeroSegment ++ zeroSegment).take 25).length then 1 else 0⟩ := by
  have hread : (twoWritten.read ['/', 'f'] (.int 25)).1 =
      .ok (.bytes ((zeroSegment ++ zeroSegment).take 25)) := rfl
  refine verify_of_serve ?_ serve_twoWrites hread
  intro request hrequest data hdata
  rcases List.mem_cons.mp hrequest with rfl | hrequest
  · cases hdata
    exact isDrawn_zeroSegment
  · rw [List.mem_singleton] at hrequest
    subst hrequest
    cases hdata
    exact isDrawn_zeroSegment

end Memory

end StorageLoad
