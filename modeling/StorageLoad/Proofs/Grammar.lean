import StorageLoad.Proofs.Segment

/-!
What stored bytes can be.  A reader accepts whole segments with a torn one or nothing behind them,
and no other bytes; and there is only one way to read bytes so (`verify_exact`).  Of segments that
are drawn in turn, it accepts every cut (`verify_take_drawAll`).
-/

namespace StorageLoad

theorem foldl_ofBigEndian (bs : Bytes) (start : Nat) :
    bs.foldl (fun n b => 256 * n + b.toNat) start = 256 ^ bs.length * start + ofBigEndian bs := by
  induction bs generalizing start with
  | nil => simp [ofBigEndian]
  | cons b bs ih =>
      rw [ofBigEndian, List.foldl_cons, List.foldl_cons, ih, ih (256 * 0 + b.toNat),
        List.length_cons, Nat.pow_succ, Nat.mul_add, Nat.mul_add, Nat.mul_assoc]
      omega

theorem ofBigEndian_cons (b : UInt8) (bs : Bytes) :
    ofBigEndian (b :: bs) = 256 ^ bs.length * b.toNat + ofBigEndian bs := by
  rw [ofBigEndian, List.foldl_cons, foldl_ofBigEndian, Nat.mul_zero, Nat.zero_add]

theorem ofBigEndian_lt (bs : Bytes) : ofBigEndian bs < 256 ^ bs.length := by
  induction bs with
  | nil => exact Nat.one_pos
  | cons b bs ih =>
      have hb : b.toNat + 1 ≤ 256 := b.toNat_lt
      calc
        ofBigEndian (b :: bs) = 256 ^ bs.length * b.toNat + ofBigEndian bs :=
          ofBigEndian_cons b bs
        _ < 256 ^ bs.length * b.toNat + 256 ^ bs.length := Nat.add_lt_add_left ih _
        _ = 256 ^ bs.length * (b.toNat + 1) := (Nat.mul_succ _ _).symm
        _ ≤ 256 ^ bs.length * 256 := Nat.mul_le_mul_left _ hb
        _ = 256 ^ (b :: bs).length := rfl

theorem bigEndian_add (width m n : Nat) :
    bigEndian width (256 ^ width * m + n) = bigEndian width n := by
  induction width generalizing m with
  | zero => rfl
  | succ width ih =>
      have hpos : 0 < 256 ^ width := Nat.pow_pos (by decide)
      have hsplit : 256 ^ (width + 1) * m + n = 256 ^ width * (256 * m) + n := by
        rw [Nat.pow_succ, Nat.mul_assoc]
      have hbyte : UInt8.ofNat (256 * m + n / 256 ^ width) = UInt8.ofNat (n / 256 ^ width) := by
        apply UInt8.toNat_inj.mp
        rw [UInt8.toNat_ofNat', UInt8.toNat_ofNat', Nat.mul_add_mod]
      rw [hsplit, bigEndian, bigEndian, ih, Nat.mul_add_div hpos, hbyte]

theorem bigEndian_ofBigEndian {width : Nat} {bs : Bytes} (h : bs.length = width) :
    bigEndian width (ofBigEndian bs) = bs := by
  subst h
  induction bs with
  | nil => rfl
  | cons b bs ih =>
      have hpos : 0 < 256 ^ bs.length := Nat.pow_pos (by decide)
      have hhigh : ofBigEndian (b :: bs) / 256 ^ bs.length = b.toNat := by
        rw [ofBigEndian_cons, Nat.mul_add_div hpos, Nat.div_eq_of_lt (ofBigEndian_lt bs),
          Nat.add_zero]
      rw [List.length_cons, bigEndian, hhigh, UInt8.ofNat_toNat, ofBigEndian_cons,
        bigEndian_add, ih]

namespace Segment

theorem ofBigEndian_take_lt (data : Bytes) : ofBigEndian (data.take 8) < 2 ^ 64 :=
  Nat.lt_of_lt_of_le (ofBigEndian_lt _)
    (Nat.pow_le_pow_right (n := 256) (by decide) (List.length_take_le 8 data))

theorem header_append_drop {data : Bytes} (h : headerLength ≤ data.length) :
    header (ofBigEndian (data.take 8)) (ofBigEndian ((data.drop 8).take 8)) ++
      data.drop headerLength = data := by
  rw [headerLength] at h ⊢
  have hfirst : (data.take 8).length = 8 := List.length_take_of_le (by omega)
  have hsecond : ((data.drop 8).take 8).length = 8 :=
    List.length_take_of_le (by rw [List.length_drop]; omega)
  rw [header, bigEndian_ofBigEndian hfirst, bigEndian_ofBigEndian hsecond, List.append_assoc]
  change data.take 8 ++ ((data.drop 8).take 8 ++ data.drop (8 + 8)) = data
  rw [← List.drop_drop, List.take_append_drop, List.take_append_drop]

theorem header_append_inj {seed length seed' length' : Nat} {rest rest' : Bytes}
    (hseed : seed < 2 ^ 64) (hlength : length < 2 ^ 64) (hseed' : seed' < 2 ^ 64)
    (hlength' : length' < 2 ^ 64)
    (h : header seed length ++ rest = header seed' length' ++ rest') :
    seed = seed' ∧ length = length' ∧ rest = rest' := by
  obtain ⟨hheader, hrest⟩ := List.append_inj h (by simp)
  obtain ⟨hfirst, hsecond⟩ := List.append_inj hheader (by simp)
  have hread : ∀ n < 2 ^ 64, ofBigEndian (bigEndian 8 n) = n :=
    fun _ hn => ofBigEndian_bigEndian hn
  refine ⟨?_, ?_, hrest⟩
  · rw [← hread seed hseed, hfirst, hread seed' hseed']
  · rw [← hread length hlength, hsecond, hread length' hlength']

/-- Whole segments one after the other, and behind them nothing or a torn one. -/
structure IsReading (data : Bytes) (segments : List Bytes) (rest : Bytes) : Prop where
  eq : data = segments.flatten ++ rest
  whole : ∀ segment ∈ segments, IsWhole segment
  ending : rest = [] ∨ IsTorn rest

variable {data rest rest' segment segment' : Bytes} {segments segments' : List Bytes}

theorem lt_two_pow_of_le_maxPayload {length : Nat} (h : length ≤ maxPayload) : length < 2 ^ 64 :=
  Nat.lt_of_le_of_lt h (by decide)

theorem IsWhole.headerLength_le (h : IsWhole segment) : headerLength ≤ segment.length := by
  obtain ⟨seed, length, -, -, rfl⟩ := h
  rw [List.length_append, length_header]
  exact Nat.le_add_right _ _

theorem IsWhole.append_inj (h : IsWhole segment) (h' : IsWhole segment')
    (heq : segment ++ rest = segment' ++ rest') : segment = segment' ∧ rest = rest' := by
  obtain ⟨seed, length, hseed, hlength, rfl⟩ := h
  obtain ⟨seed', length', hseed', hlength', rfl⟩ := h'
  rw [List.append_assoc, List.append_assoc] at heq
  obtain ⟨rfl, rfl, hrest⟩ := header_append_inj hseed (lt_two_pow_of_le_maxPayload hlength) hseed'
    (lt_two_pow_of_le_maxPayload hlength') heq
  exact ⟨rfl, List.append_cancel_left hrest⟩

theorem IsTorn.ne_nil (h : IsTorn data) : data ≠ [] := by
  cases h with
  | inHeader data hpos hlt => exact List.ne_nil_of_length_pos hpos
  | inPayload seed length available hseed hlength hlt =>
      apply List.ne_nil_of_length_pos
      rw [List.length_append, length_header]
      exact Nat.add_pos_left (by decide) _

theorem IsTorn.ne_append (h : IsTorn data) (hsegment : IsWhole segment) :
    data ≠ segment ++ rest := by
  intro heq
  cases h with
  | inHeader data hpos hlt =>
      have hle := hsegment.headerLength_le
      rw [heq, List.length_append] at hlt
      omega
  | inPayload seed length available hseed hlength hlt =>
      obtain ⟨seed', length', hseed', hlength', rfl⟩ := hsegment
      rw [List.append_assoc] at heq
      obtain ⟨rfl, rfl, hrest⟩ :=
        header_append_inj hseed (lt_two_pow_of_le_maxPayload hlength) hseed'
          (lt_two_pow_of_le_maxPayload hlength') heq
      have hlong := congrArg List.length hrest
      rw [List.length_take, List.length_append, length_payload] at hlong
      omega

theorem IsReading.ne_append (h : rest = [] ∨ IsTorn rest) (hsegment : IsWhole segment) :
    rest ≠ segment ++ rest' := by
  rcases h with rfl | h
  · intro heq
    have hle := hsegment.headerLength_le
    rw [(List.append_eq_nil_iff.mp heq.symm).1] at hle
    exact absurd hle (by decide)
  · exact h.ne_append hsegment

theorem IsReading.of_cons (h : IsReading data (segment :: segments) rest) :
    IsReading (segments.flatten ++ rest) segments rest where
  eq := rfl
  whole := fun g hg => h.whole g (List.mem_cons_of_mem _ hg)
  ending := h.ending

theorem IsReading.cons (h : IsReading data segments rest) (hsegment : IsWhole segment) :
    IsReading (segment ++ data) (segment :: segments) rest where
  eq := by rw [List.flatten_cons, List.append_assoc, h.eq]
  whole := List.forall_mem_cons.mpr ⟨hsegment, h.whole⟩
  ending := h.ending

/-- There is one way to read bytes at most. -/
theorem IsReading.unique (h : IsReading data segments rest)
    (h' : IsReading data segments' rest') :
    segments = segments' ∧ rest = rest' := by
  have heq : segments.flatten ++ rest = segments'.flatten ++ rest' := h.eq.symm.trans h'.eq
  induction segments generalizing data segments' with
  | nil =>
      cases segments' with
      | nil => exact ⟨rfl, heq⟩
      | cons segment' segments' =>
          rw [List.flatten_nil, List.nil_append, List.flatten_cons, List.append_assoc] at heq
          exact absurd heq (IsReading.ne_append h.ending (h'.whole _ List.mem_cons_self))
  | cons segment segments ih =>
      have hsegment := h.whole _ List.mem_cons_self
      rw [List.flatten_cons, List.append_assoc] at heq
      cases segments' with
      | nil => exact absurd heq.symm (IsReading.ne_append h'.ending hsegment)
      | cons segment' segments' =>
          rw [List.flatten_cons, List.append_assoc] at heq
          obtain ⟨rfl, htail⟩ := hsegment.append_inj (h'.whole _ List.mem_cons_self) heq
          have hrest := h'.of_cons
          rw [← htail] at hrest
          obtain ⟨rfl, rfl⟩ := ih h.of_cons hrest htail
          exact ⟨rfl, rfl⟩

theorem IsReading.count_eq (h : IsReading data segments rest) (offset : Nat) :
    count offset data = .ok (segments.length, if rest = [] then 0 else 1) := by
  rw [h.eq]
  induction segments generalizing data offset with
  | nil =>
      rw [List.flatten_nil, List.nil_append]
      rcases h.ending with rfl | htorn
      · exact count_nil offset
      · rw [count_of_isTorn htorn, if_neg htorn.ne_nil]
        rfl
  | cons segment segments ih =>
      rw [List.flatten_cons, List.append_assoc, count_append (h.whole _ List.mem_cons_self),
        ih h.of_cons]
      rfl

theorem exists_isReading_of_count {offset : Nat} {counts : Nat × Nat}
    (h : count offset data = .ok counts) : ∃ segments rest, IsReading data segments rest := by
  fun_induction count generalizing counts with
  | case1 offset data hempty =>
      exact ⟨[], [], List.isEmpty_iff.mp hempty, by simp, Or.inl rfl⟩
  | case2 offset data hempty hshort =>
      have hpos : 0 < data.length :=
        List.length_pos_iff.mpr fun hnil => hempty (by rw [hnil]; rfl)
      exact ⟨[], data, rfl, by simp, Or.inr (.inHeader data hpos hshort)⟩
  | case3 => cases h
  | case4 => cases h
  | case5 offset data hempty hlong =>
      -- The bytes end inside the payload: all that is there of it was compared, so that they are
      -- torn.
      rename_i seed length hlength rest available hpayload hcut
      have hwhole : rest.take available = rest := List.take_of_length_le (by omega)
      have htorn : IsTorn (header seed length ++ (payload seed length).take available) :=
        .inPayload seed length available (ofBigEndian_take_lt data)
          (Nat.le_of_not_lt hlength) hcut
      rw [take_payload seed (Nat.le_of_lt hcut), ← not_not.mp hpayload, hwhole,
        header_append_drop (Nat.le_of_not_lt hlong)] at htorn
      exact ⟨[], data, rfl, by simp, Or.inr htorn⟩
  | case6 offset data hempty hlong =>
      -- The payload is there to its end: the header and the payload are one more whole segment.
      rename_i seed length hlength rest available hpayload hcut _ _ hcount ih
      obtain ⟨segments, ending, hreading⟩ := ih hcount
      have hsame : available = length :=
        Nat.le_antisymm (Nat.min_le_left _ _) (Nat.le_of_not_lt hcut)
      have hsegment : IsWhole (header seed length ++ payload seed length) :=
        ⟨seed, length, ofBigEndian_take_lt data, Nat.le_of_not_lt hlength, rfl⟩
      have hdata : header seed length ++ payload seed length ++ rest.drop available = data := by
        rw [← hsame, ← not_not.mp hpayload, hsame, List.append_assoc, List.take_append_drop]
        exact header_append_drop (Nat.le_of_not_lt hlong)
      exact ⟨_, ending, hdata ▸ hreading.cons hsegment⟩
  | case7 => cases h

theorem IsReading.verify_eq (h : IsReading data segments rest) :
    verify data = .ok ⟨data.length, segments.length, if rest = [] then 0 else 1⟩ := by
  rw [verify, h.count_eq]

theorem exists_isReading_of_verify {verdict : Verdict} (h : verify data = .ok verdict) :
    ∃ segments rest, IsReading data segments rest := by
  rw [verify] at h
  split at h
  · rename_i hcount
    exact exists_isReading_of_count hcount
  · cases h

/-- Reading accepts bytes that are whole segments one after the other with nothing or a torn one
behind them, and says of them how many segments are whole and whether one is torn.  There is only
one way to read them so.  It refuses all other bytes as not what was written. -/
theorem verify_exact (data : Bytes) :
    (∀ verdict, verify data = .ok verdict ↔
        verdict.bytesRead = data.length ∧ ∃ segments rest, IsReading data segments rest ∧
          verdict.verified = segments.length ∧ verdict.unverified = if rest = [] then 0 else 1) ∧
      (∀ segments rest segments' rest', IsReading data segments rest →
        IsReading data segments' rest' → segments = segments' ∧ rest = rest') ∧
      ((¬ ∃ segments rest, IsReading data segments rest) →
        ∃ fault, verify data = .error fault ∧ (Fault.segment fault).family = .verification) := by
  refine ⟨?_, fun _ _ _ _ h h' => h.unique h', ?_⟩
  · rintro ⟨bytesRead, verified, unverified⟩
    constructor
    · intro h
      obtain ⟨hread, -⟩ := le_of_verify h
      obtain ⟨segments, rest, hreading⟩ := exists_isReading_of_verify h
      rw [hreading.verify_eq] at h
      obtain ⟨-, hverified, hunverified⟩ := Verdict.mk.inj (Except.ok.inj h)
      exact ⟨hread, segments, rest, hreading, hverified.symm, hunverified.symm⟩
    · rintro ⟨hread, segments, rest, hreading, hverified, hunverified⟩
      rw [hreading.verify_eq, ← hread, ← hverified, ← hunverified]
  · intro hnone
    cases h : verify data with
    | ok verdict => exact absurd (exists_isReading_of_verify h) hnone
    | error fault => exact ⟨fault, rfl, rfl⟩

/-- Segments of given sizes, drawn one after the other. -/
def drawAll {ρ : Type} [RandomSource ρ] : List Int → ρ → Outcome (List Bytes) × ρ
  | [], r => (.ok [], r)
  | size :: sizes, r =>
      match draw size r with
      | (.error fault, r) => (.error fault, r)
      | (.ok segment, r) =>
          let (segments, r) := drawAll sizes r
          (segments.map (segment :: ·), r)

/-- A segment of the row ends with its `n`-th byte. -/
def EndsAt (segments : List Bytes) (n : Nat) : Prop :=
  ∃ i < segments.length, (segments.take (i + 1)).flatten.length = n

instance (segments : List Bytes) (n : Nat) : Decidable (EndsAt segments n) :=
  inferInstanceAs (Decidable (∃ i < segments.length, _))

theorem endsAt_cons (segment : Bytes) (segments : List Bytes) (n : Nat) :
    EndsAt (segment :: segments) n ↔
      n = segment.length ∨ segment.length ≤ n ∧ EndsAt segments (n - segment.length) := by
  have hzero : (segments.take 0).flatten.length = 0 := rfl
  constructor
  · rintro ⟨i, hi, hend⟩
    rw [length_flatten_take_cons] at hend
    cases i with
    | zero => exact Or.inl (by omega)
    | succ i =>
        rw [List.length_cons] at hi
        exact Or.inr ⟨by omega, i, by omega, by omega⟩
  · rintro (rfl | ⟨hle, i, hi, hend⟩)
    · exact ⟨0, Nat.succ_pos _, length_flatten_take_cons segment segments 0⟩
    · exact ⟨i + 1, Nat.succ_lt_succ hi, by rw [length_flatten_take_cons]; omega⟩

theorem cutsInside_iff {n : Nat} (hn : n ≤ segments.flatten.length) :
    CutsInside segments n ↔ ¬ (n = 0 ∨ EndsAt segments n) := by
  induction segments generalizing n with
  | nil =>
      obtain rfl : n = 0 := Nat.le_zero.mp hn
      simp [CutsInside]
  | cons segment segments ih =>
      rw [List.flatten_cons, List.length_append] at hn
      rw [cutsInside_cons, endsAt_cons, ih (by omega)]
      by_cases hle : segment.length ≤ n <;> grind

theorem exists_drawAll {ρ : Type} [RandomSource ρ] {sizes : List Int}
    (h : ∀ size ∈ sizes, size ≤ maxPayload + headerLength) (r : ρ) :
    ∃ segments, (drawAll sizes r).1 = .ok segments ∧ (∀ g ∈ segments, IsDrawn g) ∧
      segments.map List.length = sizes.map fun size => max headerLength size.toNat := by
  induction sizes generalizing r with
  | nil => exact ⟨[], rfl, by simp, rfl⟩
  | cons size sizes ih =>
      obtain ⟨hsize, hsizes⟩ := List.forall_mem_cons.mp h
      obtain ⟨segment, hsegment, hdrawn⟩ := exists_draw hsize r
      obtain ⟨segments, hsegments, hall, hlengths⟩ := ih hsizes (draw size r).2
      refine ⟨segment :: segments, ?_, List.forall_mem_cons.mpr ⟨hdrawn, hall⟩, ?_⟩
      · rw [drawAll]
        split
        · rename_i hdraw
          rw [hdraw] at hsegment
          cases hsegment
        · rename_i hdraw
          rw [hdraw] at hsegment hsegments
          obtain rfl := Except.ok.inj hsegment
          dsimp only
          rw [hsegments]
          rfl
      · rw [List.map_cons, List.map_cons, length_of_draw hsegment, hlengths]

/-- Segments that are drawn in turn have the sizes that were asked for, but a header at least, and
whatever part of them is read back, those that end in it are whole, and one that is cut is
torn. -/
theorem verify_take_drawAll {ρ : Type} [RandomSource ρ] (sizes : List Int)
    (h : ∀ size ∈ sizes, size ≤ maxPayload + headerLength) (r : ρ) :
    ∃ segments, (drawAll sizes r).1 = .ok segments ∧
      segments.map List.length = sizes.map (fun size => max headerLength size.toNat) ∧
      ∀ n ≤ segments.flatten.length, verify (segments.flatten.take n) =
        .ok ⟨n, wholeWithin segments n, if n = 0 ∨ EndsAt segments n then 0 else 1⟩ := by
  obtain ⟨segments, hdraw, hall, hlengths⟩ := exists_drawAll h r
  refine ⟨segments, hdraw, hlengths, ?_⟩
  intro n hn
  simp only [verify_take_flatten hall hn, cutsInside_iff hn, ite_not]

/-- A segment with four bytes behind its header, and one that is no more than a header, cut in
that one. -/
theorem verify_take_drawAll_short :
    ∃ segments, (drawAll [20, 4] (Twister.ofSeed 17)).1 = .ok segments ∧
    segments.map List.length = [20, 16] ∧
    verify (segments.flatten.take 25) = .ok ⟨25, 1, 1⟩ := by
  have hsizes : ∀ size ∈ [20, 4], size ≤ (maxPayload : Int) + headerLength := by decide
  obtain ⟨segments, hdraw, hlengths, hverify⟩ :=
    verify_take_drawAll [20, 4] hsizes (Twister.ofSeed 17)
  refine ⟨segments, hdraw, hlengths, ?_⟩
  obtain ⟨first, rest, rfl, hfirst, hrest⟩ := List.map_eq_cons_iff.mp hlengths
  obtain ⟨second, rest, rfl, hsecond, hnil⟩ := List.map_eq_cons_iff.mp hrest
  obtain rfl := List.map_eq_nil_iff.mp hnil
  have hfirst : first.length = 20 := hfirst
  have hsecond : second.length = 16 := hsecond
  rw [hverify 25 (by simp [hfirst, hsecond])]
  simp [wholeWithin_cons, endsAt_cons, hfirst, hsecond]

end Segment

end StorageLoad
