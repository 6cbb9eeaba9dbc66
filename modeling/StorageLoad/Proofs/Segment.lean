import Mathlib.Data.List.Basic
import StorageLoad.Proofs.Random
import StorageLoad.Segment

/-!
Reading back what was drawn.  A drawn segment tells its own seed and length, and the stream of a
seed does not depend on how much of it is asked for, so any cut of a row of drawn segments is
accepted, the segments before the cut are counted as whole, and one that is cut is counted as
partial (`verify_take_flatten`).
-/

namespace StorageLoad

theorem foldl_bigEndian (width n start : Nat) :
    (bigEndian width n).foldl (fun n b => 256 * n + b.toNat) start =
      256 ^ width * start + n % 256 ^ width := by
  induction width generalizing start with
  | zero => simp [bigEndian, Nat.mod_one]
  | succ width ih =>
      have hbyte : (UInt8.ofNat (n / 256 ^ width)).toNat = n / 256 ^ width % 256 :=
        UInt8.toNat_ofNat'
      rw [bigEndian, List.foldl_cons, ih, hbyte, Nat.mod_pow_succ, Nat.pow_succ, Nat.mul_add,
        Nat.mul_assoc]
      omega

theorem ofBigEndian_bigEndian {width n : Nat} (h : n < 256 ^ width) :
    ofBigEndian (bigEndian width n) = n := by
  rw [ofBigEndian, foldl_bigEndian, Nat.mod_eq_of_lt h, Nat.mul_zero, Nat.zero_add]

namespace Segment

variable {ρ : Type} [RandomSource ρ]

theorem take_stream {rest whole k : Nat} (hrest : rest < blockLength)
    (hk : k ≤ whole * blockLength + rest) (r : ρ) :
    (stream rest whole r).take k = stream (k % blockLength) (k / blockLength) r := by
  induction whole generalizing k r with
  | zero =>
      have hlt : k < blockLength := by omega
      rw [stream, Nat.mod_eq_of_lt hlt, Nat.div_eq_of_lt hlt, stream, List.take_take]
      congr 1
      omega
  | succ whole ih =>
      rw [stream]
      by_cases hlt : k < blockLength
      · rw [Nat.mod_eq_of_lt hlt, Nat.div_eq_of_lt hlt, stream,
          List.take_append_of_le_length (by rw [length_block]; omega)]
      · obtain ⟨j, rfl⟩ := Nat.exists_eq_add_of_le (Nat.le_of_not_lt hlt)
        have hpos : 0 < blockLength := by decide
        rw [Nat.add_mod_left, Nat.add_div_left j hpos, stream, List.take_append, length_block,
          Nat.add_sub_cancel_left, List.take_of_length_le (by rw [length_block]; omega)]
        rw [ih (by rw [Nat.succ_mul] at hk; omega)]

theorem take_payload (seed : Int) {k length : Nat} (h : k ≤ length) :
    (payload seed length).take k = payload seed k := by
  refine take_stream (Nat.mod_lt _ (by decide)) ?_ _
  rw [Nat.mul_comm, Nat.div_add_mod]
  exact h

/-- Bytes that are drawn as one segment of a size, from any source. -/
def IsOfSize (size : Int) (segment : Bytes) : Prop :=
  ∃ (ρ : Type) (_ : RandomSource ρ) (r : ρ), (draw size r).1 = .ok segment

/-- Bytes that are drawn as one segment, from any source, of a size that a reader accepts. -/
def IsDrawn (segment : Bytes) : Prop :=
  ∃ (ρ : Type) (_ : RandomSource ρ) (r : ρ) (size : Int),
    size ≤ maxPayload + headerLength ∧ (draw size r).1 = .ok segment

theorem IsOfSize.isDrawn {size : Int} {segment : Bytes} (h : IsOfSize size segment)
    (hsize : size ≤ maxPayload + headerLength) : IsDrawn segment := by
  obtain ⟨ρ, source, r, hdraw⟩ := h
  exact ⟨ρ, source, r, size, hsize, hdraw⟩

/-- A header and the whole payload that it promises, one that a reader accepts. -/
def IsWhole (segment : Bytes) : Prop :=
  ∃ seed length, seed < 2 ^ 64 ∧ length ≤ maxPayload ∧
    segment = header seed length ++ payload seed length

/-- Bytes in which a segment begins and does not end: less than a header, or a header before less
than the payload that it promises. -/
inductive IsTorn : Bytes → Prop
  | inHeader (data : Bytes) (hpos : 0 < data.length)
      (hlt : data.length < headerLength) : IsTorn data
  | inPayload (seed length available : Nat) (hseed : seed < 2 ^ 64)
      (hlength : length ≤ maxPayload) (hlt : available < length) :
      IsTorn (header seed length ++ (payload seed length).take available)

theorem exists_of_draw {size : Int} {r : ρ} {segment : Bytes}
    (h : (draw size r).1 = .ok segment) :
    ∃ seed < 2 ^ 63, ∃ length < 2 ^ 64, length = (size - headerLength).toNat ∧
      segment = header seed length ++ payload seed length := by
  have hseed := RandomSource.bits_lt 63 r
  rw [draw] at h
  split at h
  rename_i seed r' hbits
  rw [hbits] at hseed
  dsimp only at h
  split at h
  · cases h
  · rename_i hroom
    exact ⟨seed, hseed, _, Nat.lt_of_not_le hroom, rfl, (Except.ok.inj h).symm⟩

theorem length_of_draw {size : Int} {r : ρ} {segment : Bytes}
    (h : (draw size r).1 = .ok segment) :
    segment.length = max headerLength size.toNat := by
  obtain ⟨seed, -, length, -, hlength, rfl⟩ := exists_of_draw h
  rw [List.length_append, length_header, length_payload]
  omega

theorem IsDrawn.isWhole {segment : Bytes} (h : IsDrawn segment) : IsWhole segment := by
  obtain ⟨ρ, _, r, size, hsize, hdraw⟩ := h
  obtain ⟨seed, hseed, length, -, hlength, rfl⟩ := exists_of_draw hdraw
  exact ⟨seed, length, by omega, by omega, rfl⟩

theorem IsWhole.length_le {segment : Bytes} (h : IsWhole segment) :
    segment.length ≤ headerLength + maxPayload := by
  obtain ⟨seed, length, -, hlength, rfl⟩ := h
  rw [List.length_append, length_header, length_payload]
  exact Nat.add_le_add_left hlength _

theorem IsWhole.isTorn_take {segment : Bytes} (h : IsWhole segment) {k : Nat} (hpos : 0 < k)
    (hlt : k < segment.length) : IsTorn (segment.take k) := by
  have hk : (segment.take k).length = k := List.length_take_of_le (Nat.le_of_lt hlt)
  by_cases hheader : k < headerLength
  · exact .inHeader _ (by rw [hk]; exact hpos) (by rw [hk]; exact hheader)
  · obtain ⟨seed, length, hseed, hlength, rfl⟩ := h
    obtain ⟨j, rfl⟩ := Nat.exists_eq_add_of_le (Nat.le_of_not_lt hheader)
    have hj : j < length := by
      rw [List.length_append, length_header, length_payload] at hlt
      omega
    rw [← length_header seed length, List.take_length_add_append]
    exact .inPayload seed length j hseed hlength hj

theorem add_le_of_count {offset : Nat} {data : Bytes} {verified unverified : Nat}
    (h : count offset data = .ok (verified, unverified)) :
    verified + unverified ≤ data.length := by
  have hpos : 0 < headerLength := by decide
  fun_induction count generalizing verified unverified with
  | case1 =>
      cases h
      exact Nat.zero_le _
  | case2 offset data hempty hshort =>
      cases h
      rw [List.isEmpty_iff_length_eq_zero] at hempty
      omega
  | case3 => cases h
  | case4 => cases h
  | case5 offset data hempty hlong =>
      cases h
      omega
  | case6 offset data hempty hlong =>
      rename_i v u hcount ih
      cases h
      have hrest := ih hcount
      rw [List.length_drop, List.length_drop] at hrest
      omega
  | case7 => cases h

theorem le_of_verify {data : Bytes} {verdict : Verdict} (h : verify data = .ok verdict) :
    verdict.bytesRead = data.length ∧ verdict.verified + verdict.unverified ≤ data.length := by
  rw [verify] at h
  split at h
  · rename_i verified unverified hcount
    obtain rfl := Except.ok.inj h
    exact ⟨rfl, add_le_of_count hcount⟩
  · cases h

theorem exists_draw {size : Int} (hsize : size ≤ maxPayload + headerLength) (r : ρ) :
    ∃ segment, (draw size r).1 = .ok segment ∧ IsDrawn segment := by
  have hroom : ¬ 2 ^ 64 ≤ (size - headerLength).toNat := by
    rw [maxPayload] at hsize
    omega
  have hdraw : ∃ segment, (draw size r).1 = .ok segment := by
    rw [draw]
    dsimp only
    rw [if_neg hroom]
    exact ⟨_, rfl⟩
  obtain ⟨segment, hsegment⟩ := hdraw
  exact ⟨segment, hsegment, ρ, _, r, size, hsize, hsegment⟩

theorem count_nil (offset : Nat) : count offset [] = .ok (0, 0) := by
  rw [count]
  exact if_pos rfl

theorem count_of_length_lt (offset : Nat) {data : Bytes} (hpos : 0 < data.length)
    (hlt : data.length < headerLength) : count offset data = .ok (0, 1) := by
  have hne : ¬ data.isEmpty := by
    rw [List.isEmpty_iff_length_eq_zero]
    omega
  rw [count, if_neg hne, dif_pos hlt]

theorem count_header_append (offset : Nat) {seed length : Nat} (hseed : seed < 2 ^ 64)
    (hlength : length ≤ maxPayload) (rest : Bytes) :
    count offset (header seed length ++ rest) =
      let available := min length rest.length
      if rest.take available ≠ payload seed available then .error (.mismatch offset)
      else if available < length then .ok (0, 1)
      else
        (count (offset + headerLength + available) (rest.drop available)).map
          fun (verified, unverified) => (verified + 1, unverified) := by
  have hlong : headerLength ≤ (header seed length ++ rest).length := by
    rw [List.length_append, length_header]
    omega
  have hne : ¬ (header seed length ++ rest).isEmpty := by
    rw [List.isEmpty_iff_length_eq_zero]
    have hpos : 0 < headerLength := by decide
    omega
  have hdrop : (header seed length ++ rest).drop headerLength = rest :=
    List.drop_left' (length_header seed length)
  have hfirst : ofBigEndian ((header seed length ++ rest).take 8) = seed := by
    rw [header, List.append_assoc, List.take_left' (length_bigEndian 8 seed)]
    exact ofBigEndian_bigEndian hseed
  have hsecond : ofBigEndian (((header seed length ++ rest).drop 8).take 8) = length := by
    rw [header, List.append_assoc, List.drop_left' (length_bigEndian 8 seed),
      List.take_left' (length_bigEndian 8 length)]
    refine ofBigEndian_bigEndian (Nat.lt_of_le_of_lt hlength ?_)
    decide
  rw [count, if_neg hne, dif_neg (Nat.not_lt.mpr hlong)]
  simp only [hfirst, hsecond, hdrop]
  rw [if_neg (Nat.not_lt.mpr hlength)]
  split
  · rfl
  · split
    · rfl
    · cases count (offset + headerLength + min length rest.length)
        (rest.drop (min length rest.length)) <;> rfl

theorem count_append {segment : Bytes} (h : IsWhole segment) (offset : Nat) (rest : Bytes) :
    count offset (segment ++ rest) =
      (count (offset + segment.length) rest).map fun (verified, unverified) =>
        (verified + 1, unverified) := by
  obtain ⟨seed, length, hseed, hlength, rfl⟩ := h
  have havailable : min length (payload seed length ++ rest).length = length := by
    rw [List.length_append, length_payload]
    omega
  rw [List.append_assoc, count_header_append offset hseed hlength]
  simp only [havailable]
  rw [List.take_left' (length_payload seed length), List.drop_left' (length_payload seed length),
    if_neg (not_not_intro rfl), if_neg (Nat.lt_irrefl length), List.length_append, length_header,
    length_payload, Nat.add_assoc]

theorem count_of_isTorn {data : Bytes} (h : IsTorn data) (offset : Nat) :
    count offset data = .ok (0, 1) := by
  cases h with
  | inHeader data hpos hlt => exact count_of_length_lt offset hpos hlt
  | inPayload seed length available hseed hlength hlt =>
      have hle := Nat.le_of_lt hlt
      have havailable : min length (payload seed available).length = available := by
        rw [length_payload]
        omega
      have hwhole : (payload seed available).take available = payload seed available :=
        take_payload seed (Nat.le_refl available)
      rw [take_payload seed hle, count_header_append offset hseed hlength]
      simp only [havailable]
      rw [if_neg (not_not_intro hwhole), if_pos hlt]

/-- How many of the segments end within the first `n` bytes of the row. -/
def wholeWithin (segments : List Bytes) (n : Nat) : Nat :=
  (List.range segments.length).countP fun i => (segments.take (i + 1)).flatten.length ≤ n

/-- A segment of the row begins within the first `n` bytes and ends after them. -/
def CutsInside (segments : List Bytes) (n : Nat) : Prop :=
  ∃ i < segments.length,
    (segments.take i).flatten.length < n ∧ n < (segments.take (i + 1)).flatten.length

instance (segments : List Bytes) (n : Nat) : Decidable (CutsInside segments n) :=
  inferInstanceAs (Decidable (∃ i < segments.length, _ ∧ _))

theorem length_flatten_take_cons (segment : Bytes) (segments : List Bytes) (i : Nat) :
    ((segment :: segments).take (i + 1)).flatten.length =
      segment.length + (segments.take i).flatten.length := by
  rw [List.take_succ_cons, List.flatten_cons, List.length_append]

theorem wholeWithin_cons (segment : Bytes) (segments : List Bytes) (n : Nat) :
    wholeWithin (segment :: segments) n =
      if segment.length ≤ n then wholeWithin segments (n - segment.length) + 1 else 0 := by
  have hzero : (segments.take 0).flatten.length = 0 := rfl
  have hfirst := length_flatten_take_cons segment segments 0
  rw [wholeWithin, List.length_cons, List.range_succ_eq_map, List.countP_cons, List.countP_map]
  by_cases hle : segment.length ≤ n
  · rw [if_pos (decide_eq_true (by omega)), if_pos hle]
    congr 1
    refine List.countP_congr ?_
    intro i _
    rw [Function.comp_apply, decide_eq_true_eq, decide_eq_true_eq, length_flatten_take_cons]
    omega
  · rw [if_neg (by rw [decide_eq_true_eq]; omega), if_neg hle, Nat.add_zero, List.countP_eq_zero]
    intro i _
    rw [Function.comp_apply, decide_eq_true_eq, length_flatten_take_cons]
    omega

theorem cutsInside_cons (segment : Bytes) (segments : List Bytes) (n : Nat) :
    CutsInside (segment :: segments) n ↔
      0 < n ∧ n < segment.length ∨ segment.length ≤ n ∧
      CutsInside segments (n - segment.length) := by
  have hzero : ((segment :: segments).take 0).flatten.length = 0 := rfl
  have hzero' : (segments.take 0).flatten.length = 0 := rfl
  constructor
  · rintro ⟨i, hi, hstart, hend⟩
    rw [length_flatten_take_cons] at hend
    cases i with
    | zero => exact Or.inl ⟨by omega, by omega⟩
    | succ i =>
        rw [length_flatten_take_cons] at hstart
        rw [List.length_cons] at hi
        exact Or.inr ⟨by omega, i, by omega, by omega, by omega⟩
  · rintro (⟨hpos, hlt⟩ | ⟨hle, i, hi, hstart, hend⟩)
    · exact ⟨0, Nat.succ_pos _, by omega, by rw [length_flatten_take_cons]; omega⟩
    · refine ⟨i + 1, Nat.succ_lt_succ hi, ?_, ?_⟩
      · rw [length_flatten_take_cons]
        omega
      · rw [length_flatten_take_cons]
        omega

/-- A cut of a row of segments is counted as it was put together. -/
theorem count_take_flatten {segments : List Bytes} (h : ∀ g ∈ segments, IsWhole g) (offset : Nat)
    {n : Nat} (hn : n ≤ segments.flatten.length) :
    count offset (segments.flatten.take n) =
      .ok (wholeWithin segments n, if CutsInside segments n then 1 else 0) := by
  induction segments generalizing offset n with
  | nil =>
      rw [List.flatten_nil, List.take_nil, count_nil]
      simp [wholeWithin, CutsInside]
  | cons segment segments ih =>
      have hsegment := h segment List.mem_cons_self
      rw [List.flatten_cons, List.length_append] at hn
      rw [List.flatten_cons, wholeWithin_cons]
      simp only [cutsInside_cons]
      by_cases hle : segment.length ≤ n
      · obtain ⟨k, rfl⟩ := Nat.exists_eq_add_of_le hle
        rw [List.take_length_add_append, count_append hsegment, Nat.add_sub_cancel_left,
          ih (fun g hg => h g (List.mem_cons_of_mem _ hg)) _ (by omega), if_pos hle]
        simp [hle, Except.map, Nat.not_lt.mpr hle]
      · have hlt := Nat.lt_of_not_le hle
        rw [List.take_append_of_le_length (Nat.le_of_lt hlt), if_neg hle]
        rcases Nat.eq_zero_or_pos n with rfl | hpos
        · rw [List.take_zero, count_nil]
          simp [hle]
        · rw [count_of_isTorn (hsegment.isTorn_take hpos hlt)]
          simp [hpos, hlt]

theorem verify_take_flatten {segments : List Bytes} (h : ∀ g ∈ segments, IsDrawn g) {n : Nat}
    (hn : n ≤ segments.flatten.length) :
    verify (segments.flatten.take n) =
      .ok ⟨n, wholeWithin segments n, if CutsInside segments n then 1 else 0⟩ := by
  rw [verify, count_take_flatten (fun g hg => (h g hg).isWhole) 0 hn]
  simp only [List.length_take_of_le hn]

end Segment

end StorageLoad
