/-
  EvenChroma/Proofs/DoubleFields.lean
  ===================================
  **A double is its three fields.**  The sign bit, the exponent field and the fraction
  field determine a double, and tell NaN, the infinities and the zeros from all others.
  There is one NaN only, so nothing is lost by its fields not being unique.
-/
import EvenChroma.Double.Basic
import Mathlib

namespace EvenChroma.Double

open Float.Model

/-! ### The fields -/

/-- The biased exponent. -/
def exponentField (x : Float) : Nat := (x.toBits >>> 52 &&& 0x7FF).toNat

/-- The mantissa without the hidden bit. -/
def fractionField (x : Float) : Nat := (x.toBits &&& 0xFFFFFFFFFFFFF).toNat

theorem exponentField_eq (x : Float) : exponentField x = x.toBits.toNat / 2 ^ 52 % 2 ^ 11 := by
  simp only [exponentField, UInt64.toNat_and, UInt64.toNat_shiftRight, UInt64.reduceToNat]
  rw [show (2047 : Nat) = 2 ^ 11 - 1 from rfl, Nat.and_two_pow_sub_one_eq_mod,
    Nat.shiftRight_eq_div_pow]

theorem fractionField_eq (x : Float) : fractionField x = x.toBits.toNat % 2 ^ 52 := by
  simp only [fractionField, UInt64.toNat_and, UInt64.reduceToNat]
  rw [show (4503599627370495 : Nat) = 2 ^ 52 - 1 from rfl, Nat.and_two_pow_sub_one_eq_mod]

theorem isNegative_eq (x : Float) : isNegative x = decide (2 ^ 63 ≤ x.toBits.toNat) := by
  have := x.toBits.toNat_lt
  have hshift : (x.toBits >>> 63).toNat = x.toBits.toNat / 2 ^ 63 := by
    simp [Nat.shiftRight_eq_div_pow]
  rw [Bool.eq_iff_iff, isNegative, beq_iff_eq, decide_eq_true_eq, ← UInt64.toNat_inj, hshift]
  change x.toBits.toNat / 2 ^ 63 = 1 ↔ _
  omega

theorem fractionField_lt (x : Float) : fractionField x < 2 ^ 52 := by
  rw [fractionField_eq]
  exact Nat.mod_lt _ (by decide)

theorem exponentField_lt (x : Float) : exponentField x < 2 ^ 11 := by
  rw [exponentField_eq]
  exact Nat.mod_lt _ (by decide)

theorem toBits_injective {x y : Float} (h : x.toBits = y.toBits) : x = y := by
  obtain ⟨⟨bits, valid⟩⟩ := x
  obtain ⟨⟨bits', valid'⟩⟩ := y
  cases (show bits = bits' from h)
  rfl

theorem eq_of_unpack_eq {x y : Float} (h : x.toModel.unpack = y.toModel.unpack) : x = y := by
  apply toBits_injective
  rw [← UInt64.toBitVec_inj]
  exact (UnpackedFloat.unpack_inj_of_valid x.toModel.valid y.toModel.valid).mp h

theorem ofModel_pack_unpack (x : Float) : Float.ofModel (pack x.toModel.unpack) = x := by
  apply toBits_injective
  change UInt64.ofBitVec (UnpackedFloat.pack .binary64 (UnpackedFloat.unpack .binary64 _)) = _
  rw [UnpackedFloat.pack_unpack_of_valid x.toModel.valid]
  rfl

/-- Taking zero off changes nothing, not even the sign of a zero. -/
theorem sub_zero_eq (x : Float) : x - 0.0 = x := by
  have hsub : ∀ u : UnpackedFloat, UnpackedFloat.sub .binary64 u (.zero .positive) = u := by
    rintro ((_ | _) | _ | (_ | _) | _) <;> rfl
  change Float.ofModel (pack (UnpackedFloat.sub .binary64 x.toModel.unpack (.zero .positive))) = x
  rw [hsub, ofModel_pack_unpack]

/-- The three fields are all of a double. -/
theorem eq_of_fields {x y : Float} (hsign : isNegative x = isNegative y)
    (hexponent : exponentField x = exponentField y)
    (hfraction : fractionField x = fractionField y) : x = y := by
  apply toBits_injective
  rw [← UInt64.toNat_inj]
  simp only [isNegative_eq, exponentField_eq, fractionField_eq, decide_eq_decide]
    at hsign hexponent hfraction
  have := x.toBits.toNat_lt
  have := y.toBits.toNat_lt
  omega

/-! ### Doubles that are no positive or negative number -/

theorem toNat_unpackExponent (x : Float) :
    (@UnpackedFloat.unpackExponent .binary64 x.toBits.toBitVec).toNat =
      exponentField x := by
  rw [exponentField_eq]
  simp [UnpackedFloat.unpackExponent, Nat.shiftRight_eq_div_pow]

theorem unpackExponent_eq_ones_iff (x : Float) :
    @UnpackedFloat.unpackExponent .binary64 x.toBits.toBitVec = -1#_ ↔
      exponentField x = 2047 := by
  rw [← BitVec.toNat_inj, toNat_unpackExponent]
  rfl

theorem unpackExponent_eq_zero_iff (x : Float) :
    @UnpackedFloat.unpackExponent .binary64 x.toBits.toBitVec = 0#_ ↔
      exponentField x = 0 := by
  rw [← BitVec.toNat_inj, toNat_unpackExponent]
  rfl

theorem unpackMantissa_eq_zero_iff (x : Float) :
    @UnpackedFloat.unpackMantissa .binary64 x.toBits.toBitVec = 0#_ ↔
      fractionField x = 0 := by
  rw [← BitVec.toNat_inj, fractionField_eq]
  simp [UnpackedFloat.unpackMantissa]

theorem unpack_eq (x : Float) :
    x.toModel.unpack = UnpackedFloat.unpack Format.binary64 x.toBits.toBitVec := rfl

theorem isNaN_iff (x : Float) :
    x.isNaN = true ↔ exponentField x = 2047 ∧ fractionField x ≠ 0 := by
  rw [← unpackExponent_eq_ones_iff, ne_eq, ← unpackMantissa_eq_zero_iff]
  simp only [Float.isNaN, Float.Model.isNaN, unpack_eq, UnpackedFloat.unpack]
  split_ifs <;> simp_all [UnpackedFloat.isNaN]

theorem isInf_iff (x : Float) :
    x.isInf = true ↔ exponentField x = 2047 ∧ fractionField x = 0 := by
  rw [← unpackExponent_eq_ones_iff, ← unpackMantissa_eq_zero_iff]
  simp only [Float.isInf, Float.Model.isInf, unpack_eq, UnpackedFloat.unpack]
  split_ifs <;> simp_all [UnpackedFloat.isInf]

theorem beq_zero_unpacked (u : UnpackedFloat) :
    u.beq (.zero .positive) = true ↔ ∃ s, u = .zero s := by
  cases u with
  | infinity s => cases s <;> simp [UnpackedFloat.beq, UnpackedFloat.compare]
  | notANumber => simp [UnpackedFloat.beq, UnpackedFloat.compare]
  | zero s => simp [UnpackedFloat.beq, UnpackedFloat.compare]
  | finite s m e h => cases s <;> simp [UnpackedFloat.beq, UnpackedFloat.compare]

theorem beq_zero_iff (x : Float) :
    (x == 0.0) = true ↔ exponentField x = 0 ∧ fractionField x = 0 := by
  have hzero : (0.0 : Float).toModel.unpack = .zero .positive := rfl
  change UnpackedFloat.beq x.toModel.unpack (0.0 : Float).toModel.unpack = true ↔ _
  rw [hzero, beq_zero_unpacked, unpack_eq, ← unpackExponent_eq_zero_iff,
    ← unpackMantissa_eq_zero_iff]
  simp only [UnpackedFloat.unpack]
  split_ifs <;> simp_all

theorem eq_of_isInf {x y : Float} (hsign : isNegative x = isNegative y) (hx : x.isInf = true)
    (hy : y.isInf = true) : x = y := by
  obtain ⟨hexponent, hfraction⟩ := (isInf_iff x).mp hx
  obtain ⟨hexponent', hfraction'⟩ := (isInf_iff y).mp hy
  exact eq_of_fields hsign (hexponent.trans hexponent'.symm) (hfraction.trans hfraction'.symm)

theorem eq_of_zero {x y : Float} (hsign : isNegative x = isNegative y) (hx : (x == 0.0) = true)
    (hy : (y == 0.0) = true) : x = y := by
  obtain ⟨hexponent, hfraction⟩ := (beq_zero_iff x).mp hx
  obtain ⟨hexponent', hfraction'⟩ := (beq_zero_iff y).mp hy
  exact eq_of_fields hsign (hexponent.trans hexponent'.symm) (hfraction.trans hfraction'.symm)

/-- There is one NaN. -/
theorem eq_of_isNaN {x y : Float} (hx : x.isNaN = true) (hy : y.isNaN = true) : x = y := by
  have canonical : ∀ z : Float, z.isNaN = true →
      z.toBits.toBitVec = UnpackedFloat.packedNaN Format.binary64 := by
    intro z hz
    obtain ⟨hexponent, hfraction⟩ := (isNaN_iff z).mp hz
    exact z.toModel.valid.eq_packedNaN
      ((unpackExponent_eq_ones_iff z).mpr hexponent)
      (mt (unpackMantissa_eq_zero_iff z).mp hfraction)
  apply toBits_injective
  rw [← UInt64.toBitVec_inj, canonical x hx, canonical y hy]

end EvenChroma.Double
