import Mathlib
import Reckoner.Proofs.Binary64.Words

/-!
# Bits and signs

The bits of a number are a sign above a word, and negation flips nothing but the sign. So a finite
number is what its sign and its units say.
-/
namespace Reckoner.Binary64

open Float.Model (Format)
open Float.Model.UnpackedFloat

theorem fractions_eq : fractions = 4503599627370496 := rfl

theorem infinityWord_eq : infinityWord = 2047 * 4503599627370496 := rfl

theorem signBit_eq : signBit = 2048 * 4503599627370496 := rfl

section Fields

variable {b flipped : BitVec Format.binary64.numBits}

theorem toNat_lt_bits : b.toNat < 2 * signBit := b.isLt

theorem toNat_unpackSign : (unpackSign b).toNat = b.toNat / signBit := by
  have hsign : (unpackSign b).toNat = b.toNat / signBit % 2 := by
    simp [unpackSign, Nat.shiftRight_eq_div_pow, signBit_eq]
  have hlt : b.toNat / signBit < 2 := by
    apply Nat.div_lt_of_lt_mul
    rw [Nat.mul_comm]
    exact toNat_lt_bits
  rw [hsign, Nat.mod_eq_of_lt hlt]

theorem toNat_unpackExponent : (unpackExponent b).toNat = b.toNat / fractions % 2048 := by
  simp [unpackExponent, Nat.shiftRight_eq_div_pow, fractions_eq]

theorem toNat_unpackMantissa : (unpackMantissa b).toNat = b.toNat % fractions := by
  simp [unpackMantissa, fractions_eq]

theorem unpackExponent_eq_full_iff :
    unpackExponent b = -1#_ ↔ infinityWord ≤ b.toNat % signBit := by
  have hfull : (-BitVec.ofNat Format.binary64.exponentBits 1).toNat = 2047 := rfl
  rw [← BitVec.toNat_inj, toNat_unpackExponent, hfull, infinityWord_eq, signBit_eq, fractions_eq]
  omega

theorem isFinite_unpack_iff :
    (unpack Format.binary64 b).isFinite = true ↔ b.toNat % signBit < infinityWord := by
  rw [← Nat.not_le, ← unpackExponent_eq_full_iff, unpack]
  split_ifs <;> simp_all [isFinite]

theorem neg_unpack (h : flipped.toNat = b.toNat + signBit) :
    (unpack Format.binary64 b).neg = unpack Format.binary64 flipped := by
  have hbits := @toNat_lt_bits flipped
  have hexponent : unpackExponent flipped = unpackExponent b := by
    rw [← BitVec.toNat_inj, toNat_unpackExponent, toNat_unpackExponent, h, fractions_eq, signBit_eq]
    omega
  have hmantissa : unpackMantissa flipped = unpackMantissa b := by
    rw [← BitVec.toNat_inj, toNat_unpackMantissa, toNat_unpackMantissa, h, fractions_eq, signBit_eq]
    omega
  have hpositive : unpackSign b = 0#1 := by
    rw [← BitVec.toNat_inj, toNat_unpackSign]
    exact Nat.div_eq_of_lt (by omega)
  have hnegative : unpackSign flipped = 1#1 := by
    rw [← BitVec.toNat_inj, toNat_unpackSign, h]
    change (b.toNat + signBit) / signBit = 1
    exact Nat.div_eq_of_lt_le (by omega) (by omega)
  simp only [unpack, hexponent, hmantissa, hpositive, hnegative]
  split_ifs <;> rfl

end Fields

/-- Bits up to infinity's, with a sign or without, are the bits of the number they make. -/
theorem toBits_ofBits {bits : Nat} (hbits : bits < 2 * signBit)
    (h : bits % signBit ≤ infinityWord) :
    (Float.ofBits (UInt64.ofNat bits)).toBits.toNat = bits := by
  have heq : (UInt64.ofNat bits).toBitVec.toNat = bits := by
    rw [signBit_eq] at hbits
    simp only [UInt64.toBitVec_ofNat', BitVec.toNat_ofNat]
    omega
  have hnumber : ¬ @isNaNBits Format.binary64 (UInt64.ofNat bits).toBitVec = true := by
    intro hnan
    obtain ⟨hfull, hfraction⟩ := of_decide_eq_true hnan
    rw [unpackExponent_eq_full_iff, heq] at hfull
    refine hfraction (BitVec.toNat_inj.mp ?_)
    rw [toNat_unpackMantissa, heq]
    change bits % fractions = 0
    rw [infinityWord_eq, signBit_eq] at *
    rw [fractions_eq]
    omega
  change (pack Format.binary64 (unpack Format.binary64 (UInt64.ofNat bits).toBitVec)).toNat = bits
  rw [pack_unpack, if_neg hnumber, heq]

theorem toBits_ofWord {word : Nat} (h : word ≤ infinityWord) :
    (ofWord word).toBits.toNat = word := by
  have hlt : word < signBit := Nat.lt_of_le_of_lt h (by decide)
  exact toBits_ofBits (by omega) (by rwa [Nat.mod_eq_of_lt hlt])

theorem neg_of_toBits {x y : Float} (h : y.toBits.toNat = x.toBits.toNat + signBit) : -x = y := by
  have hflipped : y.toBits.toBitVec.toNat = x.toBits.toBitVec.toNat + signBit := h
  apply Float.toBits_inj.mp
  apply UInt64.toBitVec_inj.mp
  change pack Format.binary64 (unpack Format.binary64 x.toBits.toBitVec).neg = y.toBits.toBitVec
  rw [neg_unpack hflipped]
  exact pack_unpack_of_valid y.toModel.valid

theorem ofFields_eq_finite_iff {negative sign : Bool} {word units : Nat} :
    View.ofFields negative word = .finite sign units ↔
      word < infinityWord ∧ negative = sign ∧ unitsOfWord word = units := by
  unfold View.ofFields
  split
  case isTrue h => simp [Nat.not_lt_of_lt h]
  case isFalse h =>
    split
    case isTrue heq => simp [heq]
    case isFalse hne => simp [Nat.lt_of_le_of_ne (Nat.not_lt.mp h) hne]

/-- The finite numbers are those with a value in units. -/
theorem isFinite_iff {x : Float} :
    x.isFinite = true ↔ ∃ negative units, view x = .finite negative units := by
  have hmodel : x.isFinite = (unpack Format.binary64 x.toBits.toBitVec).isFinite := rfl
  rw [hmodel, isFinite_unpack_iff]
  simp [view, ofFields_eq_finite_iff]

theorem view_signed_ofWord {word : Nat} (h : word < infinityWord) (negative : Bool) :
    view (signed negative (ofWord word)) = .finite negative (unitsOfWord word) := by
  have hlt : word < signBit := Nat.lt_trans h (by decide)
  have hofWord := toBits_ofWord (Nat.le_of_lt h)
  cases negative with
  | false =>
    rw [signed, if_neg Bool.false_ne_true, view, hofWord, ofFields_eq_finite_iff,
      Nat.mod_eq_of_lt hlt]
    exact ⟨h, decide_eq_false (Nat.not_le.mpr hlt), rfl⟩
  | true =>
    have hmod : (word + signBit) % signBit = word := by
      rw [Nat.add_mod_right, Nat.mod_eq_of_lt hlt]
    have hbits : (Float.ofBits (UInt64.ofNat (word + signBit))).toBits.toNat = word + signBit :=
      toBits_ofBits (by omega) (hmod.trans_le (Nat.le_of_lt h))
    have hneg : -ofWord word = Float.ofBits (UInt64.ofNat (word + signBit)) :=
      neg_of_toBits (by rw [hbits, hofWord])
    rw [signed, if_pos rfl, hneg, view, hbits, ofFields_eq_finite_iff, hmod]
    exact ⟨h, decide_eq_true (Nat.le_add_left _ _), rfl⟩

theorem signed_ofWord {x : Float} {negative : Bool} {units : Nat}
    (h : view x = .finite negative units) :
    signed negative (ofWord (wordOfUnits units 1)) = x := by
  obtain ⟨hword, rfl, rfl⟩ := ofFields_eq_finite_iff.mp h
  rw [wordOfUnits_unitsOfWord hword]
  have hofWord := toBits_ofWord (Nat.le_of_lt hword)
  by_cases hsign : signBit ≤ x.toBits.toNat
  · have hbits : x.toBits.toNat < 2 * signBit := x.toBits.toNat_lt
    rw [signed, decide_eq_true hsign, if_pos rfl]
    apply neg_of_toBits
    rw [hofWord, Nat.mod_eq_sub_mod hsign, Nat.mod_eq_of_lt (by omega)]
    omega
  · rw [signed, decide_eq_false hsign, if_neg Bool.false_ne_true]
    apply Float.toBits_inj.mp
    apply UInt64.toNat_inj.mp
    rw [hofWord]
    exact Nat.mod_eq_of_lt (Nat.not_le.mp hsign)

end Reckoner.Binary64
