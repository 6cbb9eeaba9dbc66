import StorageLoad.Fault
import StorageLoad.Random.Twister

/-!
Self-describing file content: a row of segments, each a header with a seed and a length followed
by the random bytes that the seed stands for.  Reading back draws the bytes again and compares.
-/

namespace StorageLoad

abbrev Bytes := List UInt8

/-- A number in `width` bytes, most significant first. -/
def bigEndian : Nat → Nat → Bytes
  | 0, _ => []
  | width + 1, n => UInt8.ofNat (n / 256 ^ width) :: bigEndian width n

/-- The number that bytes spell, most significant first. -/
def ofBigEndian (bs : Bytes) : Nat :=
  bs.foldl (fun n b => 256 * n + b.toNat) 0

/-- The bytes before a place; a negative place counts from the end. -/
def bytesBefore (place : Int) (bs : Bytes) : Bytes :=
  bs.take (if place < 0 then (bs.length + place).toNat else place.toNat)

/-- The bytes with a mask laid over one of them; a negative place counts from the end. -/
def withMask (place mask : Int) (bs : Bytes) : Outcome Bytes :=
  let index := if place < 0 then place + bs.length else place
  if index < 0 ∨ (bs.length : Int) ≤ index then .error .noByte
  else if mask < 0 ∨ 256 ≤ mask then .error .badByte
  else .ok (bs.modify index.toNat (· ^^^ UInt8.ofNat mask.toNat))

namespace Segment

def headerLength : Nat := 16

/-- The number of bytes that are drawn at a time. -/
def blockLength : Nat := 4096

/-- The longest payload a reader accepts. -/
def maxPayload : Nat := 2 ^ 40

/-- The next block that a source yields. -/
@[specialize] def block {ρ : Type} [RandomSource ρ] (r : ρ) : Bytes × ρ :=
  RandomSource.bytes (blockLength / 4) r

/-- A number of whole blocks, one after the other, and the first `rest` bytes of the one after
them. -/
@[specialize] def stream {ρ : Type} [RandomSource ρ] (rest : Nat) : Nat → ρ → Bytes
  | 0, r => (block r).1.take rest
  | whole + 1, r =>
      let (bytes, r) := block r
      bytes ++ stream rest whole r

/-- The first bytes of the stream for a seed. -/
def payload (seed : Int) (length : Nat) : Bytes :=
  stream (length % blockLength) (length / blockLength) (Twister.ofSeed seed)

/-- The seed and the length of a payload, in eight bytes each. -/
def header (seed length : Nat) : Bytes :=
  bigEndian 8 seed ++ bigEndian 8 length

/-- The header with any two numbers, each of which has to fit in eight bytes. -/
def header? (seed length : Int) : Outcome Bytes :=
  if 0 ≤ seed ∧ seed < 2 ^ 64 ∧ 0 ≤ length ∧ length < 2 ^ 64 then
    .ok (header seed.toNat length.toNat)
  else .error .segmentTooLong

/-- A segment of `size` bytes in all, with a random seed.  A size below that of a header gives a
header without a payload. -/
def draw {ρ : Type} [RandomSource ρ] (size : Int) (r : ρ) : Outcome Bytes × ρ :=
  let (seed, r) := RandomSource.bits 63 r
  let length := (size - headerLength).toNat
  if 2 ^ 64 ≤ length then (.error .segmentTooLong, r)
  else (.ok (header seed length ++ payload seed length), r)

/-- What a reader found: the bytes read, the segments that were whole, and whether the last one
was not. -/
structure Verdict where
  bytesRead : Nat
  verified : Nat
  unverified : Nat
  deriving Repr, DecidableEq

/-- The numbers of whole and of partial segments in what is left after `offset` bytes. -/
def count (offset : Nat) (data : Bytes) : Except SegmentFault (Nat × Nat) :=
  if data.isEmpty then .ok (0, 0)
  else if _h : data.length < headerLength then .ok (0, 1)
  else
    let seed := ofBigEndian (data.take 8)
    let length := ofBigEndian ((data.drop 8).take 8)
    if maxPayload < length then .error (.badHeader offset length)
    else
      let rest := data.drop headerLength
      let available := min length rest.length
      if rest.take available ≠ payload seed available then .error (.mismatch offset)
      else if available < length then .ok (0, 1)
      else
        match count (offset + headerLength + available) (rest.drop available) with
        | .ok (verified, unverified) => .ok (verified + 1, unverified)
        | .error fault => .error fault
termination_by data.length
decreasing_by
  simp only [List.length_drop]
  have hpos : 0 < headerLength := by decide
  omega

/-- Checks every segment.  The part of a last segment that is there is compared as well. -/
def verify (data : Bytes) : Except SegmentFault Verdict :=
  match count 0 data with
  | .ok (verified, unverified) => .ok ⟨data.length, verified, unverified⟩
  | .error fault => .error fault

@[simp] theorem length_bigEndian (width n : Nat) : (bigEndian width n).length = width := by
  induction width with
  | zero => rfl
  | succ width ih => simp [bigEndian, ih]

@[simp] theorem length_header (seed length : Nat) :
    (header seed length).length = headerLength := by
  simp [header, headerLength]

theorem length_block {ρ : Type} [RandomSource ρ] (r : ρ) : (block r).1.length = blockLength := by
  simp [block, RandomSource.length_bytes, blockLength]

theorem length_stream {ρ : Type} [RandomSource ρ] {rest : Nat} (h : rest ≤ blockLength)
    (whole : Nat) (r : ρ) : (stream rest whole r).length = whole * blockLength + rest := by
  induction whole generalizing r with
  | zero => simp [stream, length_block, Nat.min_eq_left h]
  | succ whole ih =>
    rw [stream, List.length_append, ih, length_block, Nat.succ_mul]
    omega

@[simp] theorem length_payload (seed : Int) (length : Nat) :
    (payload seed length).length = length := by
  rw [payload, length_stream (Nat.le_of_lt (Nat.mod_lt _ (by decide))), Nat.mul_comm]
  exact Nat.div_add_mod length blockLength

end Segment

end StorageLoad
