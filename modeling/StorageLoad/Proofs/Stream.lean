import StorageLoad.Proofs.Corruption

/-!
The stream of a seed.  A payload is made of the blocks that the seeded source yields, of which
there are as many as needed and of the last a part.  How far it goes changes none of its bytes, so
what is there of a payload is compared with the right bytes, wherever it was cut
(`payload_exact`).
-/

namespace StorageLoad.Segment

variable {ρ : Type} [RandomSource ρ]

/-- The blocks that a source yields, one after the other. -/
def blocks : Nat → ρ → List Bytes
  | 0, _ => []
  | count + 1, r => (block r).1 :: blocks count (block r).2

theorem length_of_mem_blocks {count : Nat} {r : ρ} {bytes : Bytes} (h : bytes ∈ blocks count r) :
    bytes.length = blockLength := by
  induction count generalizing r with
  | zero => cases h
  | succ count ih =>
      rcases List.mem_cons.mp h with heq | h
      · rw [heq, length_block]
      · exact ih h

theorem length_flatten_blocks (count : Nat) (r : ρ) :
    (blocks count r).flatten.length = count * blockLength := by
  induction count generalizing r with
  | zero => rw [blocks, List.flatten_nil, List.length_nil, Nat.zero_mul]
  | succ count ih =>
      rw [blocks, List.flatten_cons, List.length_append, length_block, ih, Nat.succ_mul,
        Nat.add_comm]

theorem take_blocks_add (count more : Nat) (r : ρ) :
    (blocks (count + more) r).take count = blocks count r := by
  induction count generalizing r with
  | zero => rfl
  | succ count ih => rw [Nat.succ_add, blocks, List.take_succ_cons, ih, blocks]

theorem take_flatten_blocks {count enough length : Nat} (hcount : length ≤ count * blockLength)
    (henough : length ≤ enough * blockLength) (r : ρ) :
    (blocks count r).flatten.take length = (blocks enough r).flatten.take length := by
  wlog hle : count ≤ enough generalizing count enough
  · exact (this henough hcount (Nat.le_of_not_le hle)).symm
  obtain ⟨more, rfl⟩ := Nat.exists_eq_add_of_le hle
  have hsplit : (blocks (count + more) r).flatten =
      (blocks count r).flatten ++ ((blocks (count + more) r).drop count).flatten := by
    conv_lhs => rw [← List.take_append_drop count (blocks (count + more) r)]
    rw [List.flatten_append, take_blocks_add]
  rw [hsplit, List.take_append_of_le_length (by rw [length_flatten_blocks]; exact hcount)]

theorem stream_eq_take (rest whole : Nat) (r : ρ) :
    stream rest whole r = (blocks (whole + 1) r).flatten.take (whole * blockLength + rest) := by
  induction whole generalizing r with
  | zero =>
      rw [stream, blocks, blocks, List.flatten_cons, List.flatten_nil, List.append_nil,
        Nat.zero_mul, Nat.zero_add]
  | succ whole ih =>
      have hlength : (whole + 1) * blockLength + rest = (block r).1.length +
          (whole * blockLength + rest) := by
        rw [length_block, Nat.succ_mul]
        omega
      have hblocks : (blocks (whole + 1 + 1) r).flatten =
          (block r).1 ++ (blocks (whole + 1) (block r).2).flatten := rfl
      rw [stream]
      dsimp only
      rw [ih, hblocks, hlength, List.take_length_add_append]

theorem payload_eq_take (seed : Int) {length count : Nat} (h : length ≤ count * blockLength) :
    payload seed length = (blocks count (Twister.ofSeed seed)).flatten.take length := by
  have hlength : length / blockLength * blockLength + length % blockLength = length := by
    rw [Nat.mul_comm]
    exact Nat.div_add_mod length blockLength
  have hwhole : length ≤ (length / blockLength + 1) * blockLength := by
    rw [blockLength]
    omega
  rw [payload, stream_eq_take, hlength, take_flatten_blocks hwhole h]

/-- Adds whole blocks to bytes until there are enough of them. -/
def fill (length : Nat) (bytes : Bytes) (r : ρ) : Bytes :=
  if bytes.length < length then fill length (bytes ++ (block r).1) (block r).2 else bytes
termination_by length - bytes.length
decreasing_by
  have hpos : 0 < blockLength := by decide
  rw [List.length_append, length_block]
  omega

theorem fill_eq (length : Nat) (bytes : Bytes) (r : ρ) :
    fill length bytes r = bytes ++
      (blocks ((length - bytes.length + (blockLength - 1)) / blockLength) r).flatten := by
  fun_induction fill length bytes r with
  | case1 bytes r hless ih =>
      have hcount : (length - bytes.length + (blockLength - 1)) / blockLength =
          (length - (bytes ++ (block r).1).length + (blockLength - 1)) / blockLength + 1 := by
        rw [List.length_append, length_block, blockLength]
        omega
      rw [ih, hcount, blocks, List.flatten_cons, List.append_assoc]
  | case2 bytes r henough =>
      have hcount : (length - bytes.length + (blockLength - 1)) / blockLength = 0 := by
        rw [blockLength]
        omega
      rw [hcount, blocks, List.flatten_nil, List.append_nil]

theorem payload_eq_take_fill (seed : Int) (length : Nat) :
    payload seed length = (fill length [] (Twister.ofSeed seed)).take length := by
  rw [fill_eq, List.nil_append]
  apply payload_eq_take
  rw [List.length_nil, blockLength]
  omega

theorem count_header_append_eq (offset : Nat) {seed length : Nat} (hseed : seed < 2 ^ 64)
    (hlength : length ≤ maxPayload) {data : Bytes} (hdata : data.length ≤ length) :
    count offset (header seed length ++ data) =
      if data = (payload seed length).take data.length then
        .ok (if data.length = length then 1 else 0, if data.length < length then 1 else 0)
      else .error (.mismatch offset) := by
  rw [take_payload seed hdata]
  split
  · rename_i heq
    rcases Nat.lt_or_eq_of_le hdata with hlt | hwhole
    · have htorn := IsTorn.inPayload seed length data.length hseed hlength hlt
      rw [take_payload seed hdata, ← heq] at htorn
      rw [count_of_isTorn htorn, if_neg (Nat.ne_of_lt hlt), if_pos hlt]
    · rw [hwhole] at heq
      have hsegment : IsWhole (header seed length ++ data) :=
        ⟨seed, length, hseed, hlength, by rw [heq]⟩
      rw [if_pos hwhole, if_neg (Nat.not_lt.mpr (Nat.le_of_eq hwhole.symm)),
        ← List.append_nil (header seed length ++ data), count_append hsegment, count_nil]
      rfl
  · rename_i hne
    refine count_of_ne_payload offset hseed hlength data.length (Nat.min_eq_right hdata) ?_
    rwa [List.take_length]

/-- A payload is as long as was asked for and begins with every shorter one; it is what the blocks
of the seeded source make, cut at its length, whether just as many are drawn as are needed or
more; and the reader compares the bytes that are there of a promised payload with those that it
begins with. -/
theorem payload_exact (seed : Int) {m n : Nat} (h : m ≤ n) :
    (payload seed n).length = n ∧ (payload seed n).take m = payload seed m ∧
      payload seed n = (fill n [] (Twister.ofSeed seed)).take n ∧
      (∀ count, n ≤ count * blockLength →
        payload seed n = (blocks count (Twister.ofSeed seed)).flatten.take n ∧
          ∀ bytes ∈ blocks count (Twister.ofSeed seed), bytes.length = blockLength) ∧
      ∀ promised : Nat, seed = promised → promised < 2 ^ 64 → n ≤ maxPayload →
        ∀ data : Bytes, data.length = m → verify (header promised n ++ data) =
          if data = (payload seed n).take m then
            .ok ⟨headerLength + m, if m = n then 1 else 0, if m < n then 1 else 0⟩
          else .error (.mismatch 0) := by
  refine ⟨length_payload seed n, take_payload seed h, payload_eq_take_fill seed n,
    fun count hcount => ⟨payload_eq_take seed hcount, fun bytes => length_of_mem_blocks⟩, ?_⟩
  rintro promised rfl hseed hn data rfl
  rw [verify, count_header_append_eq 0 hseed hn h, List.length_append, length_header]
  by_cases heq : data = (payload promised n).take data.length
  · simp only [if_pos heq]
  · simp only [if_neg heq]

/-- A payload of one byte more than a block, and its first block. -/
theorem payload_exact_block : 4096 ≤ 4097 ∧ (payload 5 4097).take 4096 = payload 5 4096 ∧
    payload 5 4097 = (blocks 2 (Twister.ofSeed 5)).flatten.take 4097 ∧
    verify (header 5 4097 ++ payload 5 4096) = .ok ⟨4112, 0, 1⟩ := by
  have hle : 4096 ≤ 4097 := by decide
  obtain ⟨-, htake, -, hblocks, hverify⟩ := payload_exact 5 hle
  refine ⟨hle, htake, (hblocks 2 (by decide)).1, ?_⟩
  rw [hverify 5 rfl (by decide) (by decide) _ (length_payload 5 4096), htake, if_pos rfl]
  rfl

end StorageLoad.Segment
