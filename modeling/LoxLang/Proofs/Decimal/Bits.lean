import Mathlib
import LoxLang.Decimal.Layout

/-!
# Proofs/Decimal/Bits — the sign of a double

A double is its bits (`Float.ofBits_toBits`): the sign, eleven bits of exponent and 52 bits of
mantissa. The bits without the sign are those of `unsigned x`, which is `x` itself or, if the sign is
set, the double whose negative is `x` (`neg_unsigned`). A double is finite if they stay below those of
infinity (`unsignedBits_lt`).
-/

namespace LoxLang

open Float.Model (Format UnpackedFloat)

/-! ## The fields of a word -/

section

variable (b : BitVec 64)

theorem toNat_unpackSign :
    (@UnpackedFloat.unpackSign Format.binary64 b).toNat = b.toNat / 2 ^ 63 % 2 := by
  rw [UnpackedFloat.unpackSign_def, BitVec.extractLsb'_toNat, Nat.shiftRight_eq_div_pow]
  rfl

theorem toNat_unpackExponent :
    (@UnpackedFloat.unpackExponent Format.binary64 b).toNat = b.toNat / 2 ^ 52 % 2 ^ 11 := by
  rw [UnpackedFloat.unpackExponent_def, BitVec.extractLsb'_toNat, Nat.shiftRight_eq_div_pow]

theorem toNat_unpackMantissa :
    (@UnpackedFloat.unpackMantissa Format.binary64 b).toNat = b.toNat % 2 ^ 52 := by
  rw [UnpackedFloat.unpackMantissa_def, BitVec.extractLsb'_toNat, Nat.shiftRight_zero]

/-- The exponent has all bits set in infinities and in what is no number. -/
theorem unpackExponent_eq_top :
    @UnpackedFloat.unpackExponent Format.binary64 b = -1#11 ↔ b.toNat / 2 ^ 52 % 2 ^ 11 = 2047 := by
  rw [← BitVec.toNat_inj, toNat_unpackExponent]
  rfl

end

/-- Words with the same exponent and mantissa and different signs are each other's negatives. -/
theorem neg_unpack {b b' : BitVec 64} (hlow : b.toNat % 2 ^ 63 = b'.toNat % 2 ^ 63)
    (hsign : b.toNat / 2 ^ 63 % 2 = 0) (hsign' : b'.toNat / 2 ^ 63 % 2 = 1) :
    (UnpackedFloat.unpack Format.binary64 b).neg = UnpackedFloat.unpack Format.binary64 b' := by
  have hexponent : @UnpackedFloat.unpackExponent Format.binary64 b =
      @UnpackedFloat.unpackExponent Format.binary64 b' := by
    rw [← BitVec.toNat_inj, toNat_unpackExponent, toNat_unpackExponent]
    omega
  have hmantissa : @UnpackedFloat.unpackMantissa Format.binary64 b =
      @UnpackedFloat.unpackMantissa Format.binary64 b' := by
    rw [← BitVec.toNat_inj, toNat_unpackMantissa, toNat_unpackMantissa]
    omega
  have hpositive : @UnpackedFloat.unpackSign Format.binary64 b = 0#1 := by
    rw [← BitVec.toNat_inj, toNat_unpackSign, hsign]
    rfl
  have hnegative : @UnpackedFloat.unpackSign Format.binary64 b' = 1#1 := by
    rw [← BitVec.toNat_inj, toNat_unpackSign, hsign']
    rfl
  unfold UnpackedFloat.unpack
  simp only [hexponent, hmantissa, hpositive, hnegative]
  split
  · split <;> rfl
  · split
    · split <;> rfl
    · rfl

/-! ## The sign of a double -/

/-- The double without its sign. -/
def unsigned (x : Float) : Float :=
  Float.ofBits (x.toBits.toNat % Nat.pow 2 63).toUInt64

section

variable {x : Float}

/-- A number that is not negative is its own magnitude. -/
theorem unsigned_of_not_isNegative (h : isNegative x = false) : unsigned x = x := by
  have hlt : x.toBits.toNat < 2 ^ 63 := by simpa [isNegative] using h
  have hbits : x.toBits.toNat.toUInt64 = x.toBits := by simp
  rw [unsigned, Nat.pow_eq, Nat.mod_eq_of_lt hlt, hbits, Float.ofBits_toBits]

/-- The bits of a finite number are below those of infinity. -/
theorem unsignedBits_lt (h : x.isFinite = true) :
    x.toBits.toNat % Nat.pow 2 63 < infinityBits := by
  have hexponent : x.toBits.toNat / 2 ^ 52 % 2 ^ 11 ≠ 2047 := by
    intro htop
    have htop := (unpackExponent_eq_top x.toBits.toBitVec).mpr htop
    change (UnpackedFloat.unpack Format.binary64 x.toBits.toBitVec).isFinite = true at h
    unfold UnpackedFloat.unpack at h
    simp only [htop, if_true] at h
    split at h <;> cases h
  simp only [infinityBits, Nat.pow_eq]
  omega

/-- Bits below those of infinity are the bits of a number. -/
theorem toBits_ofBits_of_lt {bits : Nat} (h : bits < infinityBits) :
    (Float.ofBits bits.toUInt64).toBits = bits.toUInt64 := by
  refine UInt64.toBitVec_inj.mp ?_
  change UnpackedFloat.pack Format.binary64
    (UnpackedFloat.unpack Format.binary64 bits.toUInt64.toBitVec) = _
  rw [UnpackedFloat.pack_unpack, if_neg]
  intro hnan
  have htop : bits % 2 ^ 64 / 2 ^ 52 % 2 ^ 11 = 2047 :=
    (unpackExponent_eq_top bits.toUInt64.toBitVec).mp (of_decide_eq_true hnan).1
  simp only [infinityBits] at h
  omega

/-- **A double with the sign set is the negative of the one without it.** -/
theorem neg_unsigned (h : x.isFinite = true) (hneg : isNegative x = true) : -unsigned x = x := by
  have hge : 2 ^ 63 ≤ x.toBits.toNat := by simpa [isNegative] using hneg
  have hlt : x.toBits.toNat < 2 ^ 64 := x.toBits.toNat_lt
  have hbits : (unsigned x).toBits.toBitVec.toNat = x.toBits.toNat % 2 ^ 63 := by
    rw [unsigned, toBits_ofBits_of_lt (unsignedBits_lt h)]
    change x.toBits.toNat % 2 ^ 63 % 2 ^ 64 = _
    omega
  have hnegative : (UnpackedFloat.unpack Format.binary64 (unsigned x).toBits.toBitVec).neg =
      UnpackedFloat.unpack Format.binary64 x.toBits.toBitVec := by
    have hword : x.toBits.toBitVec.toNat = x.toBits.toNat := rfl
    refine neg_unpack ?_ ?_ ?_ <;> omega
  have htoBits : (-unsigned x).toBits = x.toBits := by
    refine UInt64.toBitVec_inj.mp ?_
    change UnpackedFloat.pack Format.binary64
      (UnpackedFloat.unpack Format.binary64 (unsigned x).toBits.toBitVec).neg = _
    rw [hnegative]
    exact UnpackedFloat.pack_unpack_of_valid x.toModel.valid
  rw [← Float.ofBits_toBits (-unsigned x), htoBits, Float.ofBits_toBits]

end

/-- A number that is rounded from a fraction has no sign. -/
theorem isNegative_nearest {n d : Nat} (h : (nearest n d).isFinite = true) :
    isNegative (nearest n d) = false := by
  have hbits : nearestBits n d < infinityBits := by
    have hle : nearestBits n d ≤ infinityBits := by
      unfold nearestBits
      exact Nat.min_le_left _ _
    refine lt_of_le_of_ne hle fun heq => ?_
    rw [nearest, heq] at h
    exact absurd h (by decide +kernel)
  rw [isNegative, nearest, toBits_ofBits_of_lt hbits]
  generalize nearestBits n d = bits at hbits
  have hmod : bits.toUInt64.toNat = bits % 2 ^ 64 := UInt64.toNat_ofNat'
  have htop : infinityBits < 2 ^ 63 := by decide
  refine decide_eq_false fun hle => ?_
  rw [hmod, Nat.pow_eq] at hle
  omega

end LoxLang
