import Mathlib
import StorageLoad.Numeric.Double

/-!
Doubles taken apart and put together.  A double has a sign, a mantissa and an exponent out of a
certain range, and whatever is in that range keeps its parts when it is written into bits
(`settle_of_isCanonical`).
-/

namespace StorageLoad.Double

open Float.Model Float.Model.UnpackedFloat

/-- The finite numbers that the bits of a double can stand for. -/
inductive IsNumber : UnpackedFloat → Prop
  | zero (s : Sign) : IsNumber (.zero s)
  | finite (s : Sign) (m : Nat) (e : Int) (hpos : 0 < m) (hm : m < 2 ^ 53) (hlow : -1074 ≤ e)
      (hhigh : e ≤ 971) (hnormal : 2 ^ 52 ≤ m ∨ e = -1074) : IsNumber (.finite s m e hpos)

/-- What the bits of a double can stand for. -/
inductive IsCanonical : UnpackedFloat → Prop
  | notANumber : IsCanonical .notANumber
  | infinity (s : Sign) : IsCanonical (.infinity s)
  | number {u : UnpackedFloat} (h : IsNumber u) : IsCanonical u

/-- The number whose bits have a sign, an exponent and a fraction. -/
def ofFields (s : Sign) (power fraction : Nat) : UnpackedFloat :=
  if power = 2047 then if fraction = 0 then .infinity s else .notANumber
  else if power = 0 then
    if h : fraction = 0 then .zero s else .finite s fraction (-1074) (Nat.pos_of_ne_zero h)
  else .finite s (2 ^ 52 + fraction) (power - 1075) (by omega)

theorem isCanonical_ofFields (s : Sign) {power fraction : Nat} (hpower : power < 2 ^ 11)
    (hfraction : fraction < 2 ^ 52) : IsCanonical (ofFields s power fraction) := by
  rw [ofFields]
  split
  · split
    · exact .infinity s
    · exact .notANumber
  · split
    · split
      · exact .number (.zero s)
      · exact .number (.finite s _ _ _ (by omega) (by decide) (by decide) (Or.inr rfl))
    · exact .number (.finite s _ _ _ (by omega) (by omega) (by omega) (Or.inl (by omega)))

theorem ofFields_ne_notANumber (s : Sign) {power : Nat} (fraction : Nat) (h : power ≠ 2047) :
    ofFields s power fraction ≠ .notANumber := by
  rw [ofFields, if_neg h]
  intro hnan
  split at hnan
  · split at hnan
    · cases hnan
    · cases hnan
  · cases hnan

theorem bias_eq : (Format.binary64.exponentBias : Int) +
    (Format.binary64.mantissaBitsWithoutImplicit : Int) = 1075 :=
  rfl

section Bits

variable (b : BitVec 64)

theorem toNat_unpackMantissa :
    (@unpackMantissa Format.binary64 b).toNat = b.toNat % 2 ^ 52 := by
  simp [unpackMantissa]

theorem toNat_unpackExponent :
    (@unpackExponent Format.binary64 b).toNat = b.toNat / 2 ^ 52 % 2 ^ 11 := by
  simp [unpackExponent, Nat.shiftRight_eq_div_pow]

theorem toNat_unpackSign :
    (@unpackSign Format.binary64 b).toNat = b.toNat / 2 ^ 63 := by
  have hlt := b.isLt
  simp only [unpackSign, BitVec.toNat_cast, BitVec.extractLsb_toNat, Nat.shiftRight_eq_div_pow]
  omega

theorem sign_unpackSign : Sign.ofBitVec (@unpackSign Format.binary64 b) =
    if b.toNat / 2 ^ 63 = 1 then .negative else .positive := by
  have hbit := toNat_unpackSign b
  have hlt := b.isLt
  rw [Sign.ofBitVec]
  by_cases h : b.toNat / 2 ^ 63 = 1
  · have hone : @unpackSign Format.binary64 b ≠ 0#1 := by
      intro hzero
      rw [hzero, h] at hbit
      cases hbit
    rw [if_pos h, if_neg hone]
  · have hzero : @unpackSign Format.binary64 b = 0#1 := by
      apply BitVec.eq_of_toNat_eq
      rw [hbit]
      change _ = 0
      omega
    rw [if_neg h, if_pos hzero]

theorem toNat_one_append (v : BitVec 52) : (1#1 ++ v).toNat = 2 ^ 52 + v.toNat := by
  rw [BitVec.toNat_append, ← Nat.shiftLeft_add_eq_or_of_lt v.isLt, Nat.shiftLeft_eq]
  rfl

theorem unpack_eq_ofFields : UnpackedFloat.unpack Format.binary64 b =
    ofFields (if b.toNat / 2 ^ 63 = 1 then .negative else .positive)
      (b.toNat / 2 ^ 52 % 2 ^ 11) (b.toNat % 2 ^ 52) := by
  have hpower := toNat_unpackExponent b
  have hfraction := toNat_unpackMantissa b
  have hall : @unpackExponent Format.binary64 b = -1#11 ↔
      b.toNat / 2 ^ 52 % 2 ^ 11 = 2047 := by
    rw [← hpower, ← BitVec.toNat_inj]
    rfl
  have hnone : @unpackExponent Format.binary64 b = 0#11 ↔
      b.toNat / 2 ^ 52 % 2 ^ 11 = 0 := by
    rw [← hpower, ← BitVec.toNat_inj]
    rfl
  have hzero : @unpackMantissa Format.binary64 b = 0#52 ↔ b.toNat % 2 ^ 52 = 0 := by
    rw [← hfraction, ← BitVec.toNat_inj]
    rfl
  rw [UnpackedFloat.unpack, ofFields]
  dsimp only
  simp only [sign_unpackSign, hpower, hfraction, toNat_one_append, hall, hnone, hzero]
  split
  · rfl
  · split
    · rename_i h
      rw [h]
      rfl
    · rfl

end Bits

section Settle

theorem unpack_packComponents (s : Sign) (e : BitVec 11) (m : BitVec 52) :
    UnpackedFloat.unpack Format.binary64 (packComponents Format.binary64 s e m) =
      ofFields s e.toNat m.toNat := by
  have he := e.isLt
  have hm := m.isLt
  have hs := s.toBitVec.isLt
  have hbits : (packComponents Format.binary64 s e m).toNat =
      s.toBitVec.toNat * 2 ^ 63 + (e.toNat * 2 ^ 52 + m.toNat) := by
    rw [packComponents, BitVec.toNat_append, ← Nat.shiftLeft_add_eq_or_of_lt m.isLt,
      Nat.shiftLeft_eq, BitVec.toNat_append, ← Nat.shiftLeft_add_eq_or_of_lt e.isLt,
      Nat.shiftLeft_eq]
    omega
  have hsign : (s.toBitVec.toNat * 2 ^ 63 + (e.toNat * 2 ^ 52 + m.toNat)) / 2 ^ 63 =
      s.toBitVec.toNat := by
    omega
  have hpower : (s.toBitVec.toNat * 2 ^ 63 + (e.toNat * 2 ^ 52 + m.toNat)) / 2 ^ 52 % 2 ^ 11 =
      e.toNat := by
    omega
  have hfraction : (s.toBitVec.toNat * 2 ^ 63 + (e.toNat * 2 ^ 52 + m.toNat)) % 2 ^ 52 =
      m.toNat := by
    omega
  rw [unpack_eq_ofFields, hbits, hsign, hpower, hfraction]
  cases s <;> rfl

/-- What is left of a number that is written into the bits of a double. -/
def settle (u : UnpackedFloat) : UnpackedFloat :=
  UnpackedFloat.unpack Format.binary64 (UnpackedFloat.pack Format.binary64 u)

theorem settle_of_isNumber {u : UnpackedFloat} (h : IsNumber u) : settle u = u := by
  cases h with
  | zero s => cases s <;> rfl
  | finite s m e hpos hm hlow hhigh hnormal =>
      have hlog : m.log2 + 1 = 53 ↔ 2 ^ 52 ≤ m := by
        have hle := Nat.le_log2 (n := m) (k := 52) (Nat.ne_of_gt hpos)
        have hlt := Nat.log2_lt (n := m) (k := 53) (Nat.ne_of_gt hpos)
        omega
      rw [settle, UnpackedFloat.pack]
      dsimp only
      rw [Int.add_assoc, bias_eq, if_neg (by omega)]
      split
      · rename_i hfull
        have hbig := hlog.mp hfull
        have hpower : (BitVec.ofNat 11 (e + 1075).toNat).toNat = (e + 1075).toNat := by
          rw [BitVec.toNat_ofNat]
          omega
        have hfraction : (BitVec.ofNat 52 m).toNat = m - 2 ^ 52 := by
          rw [BitVec.toNat_ofNat]
          omega
        have hmantissa : 2 ^ 52 + (m - 2 ^ 52) = m := Nat.add_sub_cancel' hbig
        have hexponent : ((e + 1075).toNat : Int) - 1075 = e := by omega
        rw [unpack_packComponents]
        change ofFields s (BitVec.ofNat 11 _).toNat (BitVec.ofNat 52 _).toNat = _
        rw [hpower, hfraction, ofFields, if_neg (by omega), if_neg (by omega)]
        simp only [hmantissa, hexponent]
      · rename_i hfull
        have hsmall : m < 2 ^ 52 := Nat.not_le.mp (hfull ∘ hlog.mpr)
        have hfraction : (BitVec.ofNat 52 m).toNat = m := by
          rw [BitVec.toNat_ofNat]
          omega
        have hexponent : e = -1074 := hnormal.resolve_left (Nat.not_le.mpr hsmall)
        rw [unpack_packComponents]
        change ofFields s 0 (BitVec.ofNat 52 _).toNat = _
        rw [hfraction, ofFields, if_neg (by decide), if_pos rfl, dif_neg (Nat.ne_of_gt hpos)]
        simp only [hexponent]

theorem settle_of_overflow (s : Sign) {m : Nat} {e : Int} (hpos : 0 < m) (he : 971 < e) :
    settle (.finite s m e hpos) = .infinity s := by
  rw [settle, UnpackedFloat.pack]
  dsimp only
  rw [Int.add_assoc, bias_eq, if_pos (by omega)]
  cases s <;> rfl

theorem settle_of_isCanonical {u : UnpackedFloat} (h : IsCanonical u) : settle u = u := by
  cases h with
  | notANumber => rfl
  | infinity s => cases s <;> rfl
  | number h => exact settle_of_isNumber h

theorem settle_ne_notANumber {u : UnpackedFloat} (h : u ≠ .notANumber) :
    settle u ≠ .notANumber := by
  cases u with
  | notANumber => exact absurd rfl h
  | infinity s =>
      rw [settle_of_isCanonical (.infinity s)]
      exact h
  | zero s =>
      rw [settle_of_isNumber (.zero s)]
      exact h
  | finite s m e hpos =>
      rw [settle, UnpackedFloat.pack]
      dsimp only
      split
      · intro hnan
        cases s
        · cases hnan
        · cases hnan
      · rename_i hbound
        split
        · rw [unpack_packComponents]
          apply ofFields_ne_notANumber
          rw [BitVec.toNat_ofNat]
          omega
        · rw [unpack_packComponents]
          exact ofFields_ne_notANumber s _ (by decide)

end Settle

/-- The parts of a double. -/
def parts (x : Float) : UnpackedFloat :=
  x.toModel.unpack

theorem isCanonical_parts (x : Float) : IsCanonical (parts x) := by
  change IsCanonical (UnpackedFloat.unpack _ _)
  rw [unpack_eq_ofFields]
  exact isCanonical_ofFields _ (Nat.mod_lt _ (by decide)) (Nat.mod_lt _ (by decide))

theorem parts_ofBits (b : UInt64) : parts (Float.ofBits b) =
    ofFields (if b.toNat / 2 ^ 63 = 1 then .negative else .positive)
      (b.toNat / 2 ^ 52 % 2 ^ 11) (b.toNat % 2 ^ 52) := by
  change settle (UnpackedFloat.unpack Format.binary64 b.toBitVec) = _
  rw [unpack_eq_ofFields]
  exact settle_of_isCanonical
    (isCanonical_ofFields _ (Nat.mod_lt _ (by decide)) (Nat.mod_lt _ (by decide)))

/-- What parts stand for. -/
def Shape.ofParts : UnpackedFloat → Shape
  | .notANumber => .nan
  | .infinity s => .infinite (s == .negative)
  | .zero s => .finite (s == .negative) 0 (-1074)
  | .finite s m e _ => .finite (s == .negative) m e

theorem shape_eq (x : Float) : shape x = .ofParts (parts x) := by
  change _ = Shape.ofParts (UnpackedFloat.unpack _ _)
  rw [unpack_eq_ofFields, shape]
  change (if x.toBits.toNat / 2 ^ 52 % 2048 = 2047 then _ else _) =
    Shape.ofParts (ofFields (if x.toBits.toNat / 2 ^ 63 = 1 then .negative else .positive)
      (x.toBits.toNat / 2 ^ 52 % 2048) (x.toBits.toNat % 2 ^ 52))
  have hsign : decide (x.toBits.toNat / 2 ^ 63 = 1) =
      ((if x.toBits.toNat / 2 ^ 63 = 1 then Sign.negative else .positive) == .negative) := by
    split
    · rename_i h
      rw [decide_eq_true h]
      rfl
    · rename_i h
      rw [decide_eq_false h]
      rfl
  rw [hsign, ofFields]
  generalize (if x.toBits.toNat / 2 ^ 63 = 1 then Sign.negative else .positive) = s
  split
  · split
    · rfl
    · rfl
  · split
    · split
      · rename_i h
        rw [h]
        rfl
      · rfl
    · rfl

theorem isFinite_iff (x : Float) : isFinite x ↔ IsNumber (parts x) := by
  rw [isFinite, shape_eq]
  constructor
  · intro h
    have hcanonical := isCanonical_parts x
    generalize parts x = u at h hcanonical
    cases hcanonical with
    | notANumber => cases h
    | infinity s => cases h
    | number hnumber => exact hnumber
  · intro h
    generalize parts x = u at h
    cases h with
    | zero s => rfl
    | finite s m e => rfl

section Operations

variable (x y : Float)

theorem parts_add :
    parts (x + y) = settle (UnpackedFloat.add Format.binary64 (parts x) (parts y)) :=
  rfl

theorem parts_sub :
    parts (x - y) = settle (UnpackedFloat.sub Format.binary64 (parts x) (parts y)) :=
  rfl

theorem parts_mul :
    parts (x * y) = settle (UnpackedFloat.mul Format.binary64 (parts x) (parts y)) :=
  rfl

theorem parts_div :
    parts (x / y) = settle (UnpackedFloat.div Format.binary64 (parts x) (parts y)) :=
  rfl

theorem lt_iff : x < y ↔ (parts x).compare (parts y) = some .lt := by
  change (Float.lt x y : Prop) ↔ _
  rw [Float.lt, decide_eq_true_iff]
  change (UnpackedFloat.lt (parts x) (parts y) = true) ↔ _
  rw [UnpackedFloat.lt]
  exact beq_iff_eq

end Operations

end StorageLoad.Double
