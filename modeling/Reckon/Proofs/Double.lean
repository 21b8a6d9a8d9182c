import Mathlib
import Reckon.Number.Double

/-! # Doubles and their codes

    A double is its bit pattern, so it is known by its sign and its code. The infinities are the two
    doubles with the code of infinity. All patterns beyond it are taken for one, so there is one
    double that is no number. -/

namespace Reckon.Double

open Float.Model (Format)
open Float.Model.UnpackedFloat

/-! ### The parts of a pattern -/

theorem toNat_unpackExponent (b : BitVec Format.binary64.numBits) :
    (unpackExponent b).toNat = b.toNat / exponentWeight % 0x800 := by
  rw [unpackExponent_def, BitVec.extractLsb'_toNat, Nat.shiftRight_eq_div_pow]
  rfl

theorem toNat_unpackMantissa (b : BitVec Format.binary64.numBits) :
    (unpackMantissa b).toNat = b.toNat % exponentWeight := by
  rw [unpackMantissa_def, BitVec.extractLsb'_toNat, Nat.shiftRight_zero]
  rfl

/-- A pattern is infinite if its exponent field is full and its fraction field empty. -/
theorem isInf_unpack (b : BitVec Format.binary64.numBits) :
    (unpack .binary64 b).isInf = true
      ↔ (unpackExponent b).toNat = 0x7FF ∧ (unpackMantissa b).toNat = 0 := by
  have hfull : unpackExponent b = -BitVec.ofNat _ 1 ↔ (unpackExponent b).toNat = 0x7FF :=
    BitVec.toNat_inj.symm
  have hempty : unpackMantissa b = BitVec.ofNat _ 0 ↔ (unpackMantissa b).toNat = 0 :=
    BitVec.toNat_inj.symm
  rw [← hfull, ← hempty]
  unfold unpack
  by_cases hexponent : unpackExponent b = -BitVec.ofNat _ 1
  · simp only [hexponent, if_true, true_and]
    split
    · next hm => exact iff_of_true rfl hm
    · next hm => exact iff_of_false Bool.false_ne_true hm
  · simp only [hexponent, if_false, false_and, iff_false]
    split
    · split <;> exact Bool.false_ne_true
    · exact Bool.false_ne_true

/-! ### Sign and code -/

/-- A double is known by its sign and its code. -/
theorem ofCode_code (x : Float) : ofCode (isNegative x) (code x) = x := by
  have hb : x.toBits.toNat < 2 * signWeight := x.toBits.toNat_lt
  have hn : (if isNegative x then signWeight + code x else code x) = x.toBits.toNat := by
    rcases Nat.lt_or_ge x.toBits.toNat signWeight with hlt | hge
    · rw [show isNegative x = false from decide_eq_false (Nat.not_le.mpr hlt)]
      exact Nat.mod_eq_of_lt hlt
    · rw [show isNegative x = true from decide_eq_true hge, if_pos rfl, code]
      rw [signWeight] at *
      omega
  rw [ofCode, hn, UInt64.ofNat_toNat, Float.ofBits_toBits]

/-- The infinite doubles are those with the code of infinity. -/
theorem isInf_iff {x : Float} : x.isInf = true ↔ code x = infinityCode := by
  have hunpack : x.isInf = (unpack .binary64 x.toBits.toBitVec).isInf := rfl
  have hcode : code x = x.toBits.toBitVec.toNat % signWeight := rfl
  rw [hunpack, isInf_unpack, toNat_unpackExponent, toNat_unpackMantissa, hcode, infinityCode,
    exponentWeight, signWeight]
  omega

/-- A pattern beyond infinity is the one chosen for what is no number. -/
theorem toBits_of_infinityCode_lt {x : Float} (h : infinityCode < code x) :
    x.toBits.toBitVec = packedNaN .binary64 := by
  have hvalid : Format.binary64.Valid x.toBits.toBitVec := x.toModel.valid
  have hn : 0x7FF * exponentWeight < x.toBits.toBitVec.toNat % signWeight := h
  rw [exponentWeight, signWeight] at hn
  refine hvalid.eq_packedNaN (BitVec.eq_of_toNat_eq ?_) ?_
  · rw [toNat_unpackExponent, exponentWeight]
    show _ = 0x7FF
    omega
  · intro hzero
    have hm := congrArg BitVec.toNat hzero
    rw [toNat_unpackMantissa, BitVec.toNat_zero, exponentWeight] at hm
    omega

/-- There is one double that is no number. -/
theorem eq_nan_of_infinityCode_lt {x : Float} (h : infinityCode < code x) : x = nan := by
  have hnan : infinityCode < code nan := by decide +kernel
  refine Float.toBits_inj.mp (UInt64.eq_of_toBitVec_eq ?_)
  rw [toBits_of_infinityCode_lt h, toBits_of_infinityCode_lt hnan]

end Reckon.Double
