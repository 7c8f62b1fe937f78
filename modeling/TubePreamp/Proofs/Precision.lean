import Mathlib
import TubePreamp.Sample

/-!
A number of single precision is one of double precision too: widening is exact, and narrowing undoes
it.
-/

namespace TubePreamp

open Float.Model Float.Model.UnpackedFloat

section Rounding

variable {format : Format} {m k : Nat} {e : Int}

theorem shiftRight_exact (m k : Nat) :
    (⟨m * 2 ^ k, false, false⟩ : ExtendedMantissa) >>> k = ⟨m, false, false⟩ := by
  change k.repeat ExtendedMantissa.shiftRightOne ⟨m * 2 ^ k, false, false⟩ = _
  induction k generalizing m with
  | zero => rw [pow_zero, mul_one, Nat.repeat]
  | succ k ih =>
    have hlast : m * 2 ^ (k + 1) = 2 * m * 2 ^ k := by ring
    rw [hlast, Nat.repeat, ih]
    simp [ExtendedMantissa.shiftRightOne]

theorem log2_shifted (hm : 0 < m) (k : Nat) : (m * 2 ^ k).log2 = m.log2 + k := by
  rw [Nat.log2_eq_log_two, Nat.log2_eq_log_two]
  induction k with
  | zero => rw [pow_zero, mul_one, add_zero]
  | succ k ih =>
    have hpos : m * 2 ^ k ≠ 0 := by positivity
    rw [pow_succ, ← mul_assoc, Nat.log_mul_base one_lt_two hpos, ih, add_assoc]

theorem totalExponent_shifted (hm : 0 < m) (k : Nat) (e : Int) :
    totalExponent (m * 2 ^ k) (e - k) = totalExponent m e := by
  rw [totalExponent, totalExponent, log2_shifted hm]
  omega

def Placed (format : Format) (m : Nat) (e : Int) : Prop :=
  format.targetExponent (totalExponent m e) = e

theorem Placed.shiftToTargetExponent (h : Placed format m e) (hm : 0 < m) (k : Nat) :
    shiftToTargetExponent format (m * 2 ^ k) (e - k) .exact = (⟨m, false, false⟩, e) := by
  have hshift : (e - (e - k)).toNat = k := by omega
  have hback : e - k + ((k : Nat) : Int) = e := by omega
  rw [UnpackedFloat.shiftToTargetExponent, totalExponent_shifted hm, h, shiftToExponent]
  simp only [hshift, hback, ExtendedMantissa.ofMantissaAndAccuracy, shiftRight_exact]

theorem Placed.roundWithAccuracy (h : Placed format m e) (hm : 0 < m) (sign : Sign) (k : Nat) :
    roundWithAccuracy format sign (m * 2 ^ k) (e - k) .exact = .finite sign m e hm := by
  have hagain := h.shiftToTargetExponent hm 0
  rw [pow_zero, mul_one, Nat.cast_zero, sub_zero] at hagain
  have hrounded : (⟨m, false, false⟩ : ExtendedMantissa).roundedMantissa = m := rfl
  simp only [UnpackedFloat.roundWithAccuracy, h.shiftToTargetExponent hm k, hrounded, hagain,
    dif_neg (Nat.pos_iff_ne_zero.mp hm)]

theorem Placed.round_finer (h : Placed format m e) (hm : 0 < m) (sign : Sign) (k : Nat) :
    UnpackedFloat.round format sign (m * 2 ^ k) (e - k) = .finite sign m e hm := by
  have hnone : (e - k - e).toNat = 0 := by omega
  rw [UnpackedFloat.round, totalExponent_shifted hm, h]
  simp only [decreaseExponent, hnone, Nat.shiftLeft_zero, Nat.cast_zero, sub_zero]
  exact h.roundWithAccuracy hm sign k

theorem Placed.round_coarser (h : Placed format (m * 2 ^ k) (e - k)) (hm : 0 < m) (sign : Sign) :
    UnpackedFloat.round format sign m e =
      .finite sign (m * 2 ^ k) (e - k) (Nat.mul_pos hm (Nat.two_pow_pos k)) := by
  have htarget := h
  rw [Placed, totalExponent_shifted hm] at htarget
  have hshift : (e - (e - k)).toNat = k := by omega
  have hlast := h.roundWithAccuracy (Nat.mul_pos hm (Nat.two_pow_pos k)) sign 0
  rw [pow_zero, mul_one, Nat.cast_zero, sub_zero] at hlast
  rw [UnpackedFloat.round, htarget]
  simp only [decreaseExponent, hshift, Nat.shiftLeft_eq]
  exact hlast

end Rounding

section Words

theorem append_one {n : Nat} (m : BitVec n) : (1#1 ++ m).toNat = 2 ^ n + m.toNat := by
  have hone : (1#1).toNat = 1 := rfl
  rw [BitVec.toNat_append, ← Nat.shiftLeft_add_eq_or_of_lt m.isLt, Nat.shiftLeft_eq, hone, one_mul]

@[simp] theorem unpackSign_packComponents {format : Format} {sign : Sign}
    {e : BitVec format.exponentBits} {m : BitVec format.mantissaBitsWithoutImplicit} :
    unpackSign (packComponents format sign e m) = sign.toBitVec := by
  ext i hi
  obtain rfl : i = 0 := by omega
  simp [unpackSign, packComponents, BitVec.getLsbD_append, BitVec.getElem_append]

@[simp] theorem ofBitVec_toBitVec (sign : Sign) : Sign.ofBitVec sign.toBitVec = sign := by
  cases sign <;> rfl

structure Single (m : Nat) (e : Int) : Prop where
  pos : 0 < m
  mantissa : m.log2 ≤ 23
  exponent : -149 ≤ e ∧ e ≤ 104
  normal : e = -149 ∨ m.log2 = 23

theorem Single.placed {m : Nat} {e : Int} (h : Single m e) : Placed .binary32 m e := by
  have hbits : Format.binary32.mantissaBits = 24 := rfl
  have hleast : Format.binary32.minExponent = -149 := rfl
  obtain ⟨-, hmantissa, hexponent, hnormal⟩ := h
  rw [Placed, Format.targetExponent, totalExponent, hbits, hleast]
  omega

theorem unpack_single {w : BitVec Format.binary32.numBits} {sign : Sign} {m : Nat} {e : Int}
    {hm : 0 < m} (h : unpack .binary32 w = .finite sign m e hm) : Single m e := by
  have hbias : Format.binary32.exponentBias = 127 := rfl
  have hmantissa : (unpackMantissa w).toNat < 2 ^ 23 := (unpackMantissa w).isLt
  have hexponent : (unpackExponent w).toNat < 2 ^ 8 := (unpackExponent w).isLt
  unfold UnpackedFloat.unpack at h
  simp only [hbias] at h
  split at h
  · split at h <;> cases h
  · next hfinite =>
    have htop : (unpackExponent w).toNat ≠ 255 := fun hall => hfinite (BitVec.eq_of_toNat_eq hall)
    split at h
    · next hlow =>
      split at h
      · cases h
      · cases h
        have hlog := (Nat.log2_lt (Nat.pos_iff_ne_zero.mp hm)).mpr hmantissa
        have he : ((unpackExponent w).toNat : Int) = 0 := by rw [hlow]; rfl
        constructor
        · exact hm
        · omega
        · omega
        · omega
    · next hnormal =>
      have hbottom : (unpackExponent w).toNat ≠ 0 := fun hall => hnormal (BitVec.eq_of_toNat_eq hall)
      cases h
      have happend : (1#1 ++ unpackMantissa w).toNat = 2 ^ 23 + (unpackMantissa w).toNat :=
        append_one _
      have hlog : (1#1 ++ unpackMantissa w).toNat.log2 = 23 := by
        rw [Nat.log2_eq_iff (Nat.pos_iff_ne_zero.mp hm), happend]
        omega
      constructor
      · exact hm
      · omega
      · omega
      · omega

/-- The word of a number with all its bits is read as the number. -/
theorem unpack_pack_full {m : Nat} {e : Int} (hm : 0 < m) (hfull : m.log2 = 52)
    (hrange : -1074 ≤ e ∧ e ≤ 971) (sign : Sign) :
    unpack .binary64 (pack .binary64 (.finite sign m e hm)) = .finite sign m e hm := by
  have hbias : Format.binary64.exponentBias = 1023 := rfl
  have hbits : Format.binary64.mantissaBits = 53 := rfl
  obtain ⟨b, hb⟩ : ∃ b : Nat, (b : Int) = e + 1075 := ⟨(e + 1075).toNat, by omega⟩
  have hexponent : (e + (1023 : Nat) + (52 : Nat)).toNat = b := by omega
  have hpack : pack .binary64 (.finite sign m e hm) =
      packComponents .binary64 sign (BitVec.ofNat 11 b) (BitVec.ofNat 52 m) := by
    simp only [UnpackedFloat.pack, hbias, hexponent, hfull, hbits]
    rw [if_neg (by omega), if_pos trivial]
  have hread : (BitVec.ofNat 11 b).toNat = b := by
    rw [BitVec.toNat_ofNat]
    omega
  have htop : BitVec.ofNat 11 b ≠ -1#11 := by
    intro hall
    have hvalue : b = 2047 := hread.symm.trans (congrArg BitVec.toNat hall)
    omega
  have hbottom : BitVec.ofNat 11 b ≠ 0#11 := by
    intro hnone
    have hvalue : b = 0 := hread.symm.trans (congrArg BitVec.toNat hnone)
    omega
  have hmantissa : (1#1 ++ BitVec.ofNat 52 m).toNat = m := by
    obtain ⟨hfrom, hto⟩ := (Nat.log2_eq_iff (Nat.pos_iff_ne_zero.mp hm)).mp hfull
    rw [append_one, BitVec.toNat_ofNat]
    omega
  rw [hpack, UnpackedFloat.unpack]
  simp only [unpackMantissa_packComponents, unpackExponent_packComponents,
    unpackSign_packComponents, ofBitVec_toBitVec]
  rw [if_neg htop, if_neg hbottom]
  simp only [hmantissa, hread, hbias, UnpackedFloat.finite.injEq, true_and]
  omega

theorem toBits_ofBits {w : UInt32} (h : (Float32.ofBits w).isNaN = false) :
    (Float32.ofBits w).toBits = w := by
  -- only words that are no number are changed, to the one that stands for them all
  have hvalid : Format.binary32.Valid w.toBitVec := by
    constructor
    intro hexponent hmantissa
    have hunpack : unpack .binary32 w.toBitVec = .notANumber := by
      simp only [UnpackedFloat.unpack, hexponent, if_true, if_neg hmantissa]
    have hnan : Float32.ofBits w = .ofModel (.pack .notANumber) :=
      congrArg (fun u => Float32.ofModel (.pack u)) hunpack
    rw [hnan] at h
    cases h
  exact congrArg Float32.toBits (Float32.ofBits_toBits (.ofModel ⟨w, hvalid⟩))

theorem widen_toBits (x : Float32) : (widen x).toBits.toBitVec =
    (fitted .binary64 (unpack .binary32 x.toBits.toBitVec)).pack .binary64 := by
  have hword := Float.ofBits_toBits
    (.ofModel (.pack (fitted .binary64 (unpack .binary32 x.toBits.toBitVec))))
  exact congrArg (fun y => y.toBits.toBitVec) hword

end Words

/-- In double precision there is room for all bits of any number of single precision. -/
theorem Single.widened {m : Nat} {e : Int} (h : Single m e) :
    ∃ k : Nat, Placed .binary64 (m * 2 ^ k) (e - k) ∧ (m * 2 ^ k).log2 = 52 ∧
      -1074 ≤ e - k ∧ e - k ≤ 971 := by
  have hbits : Format.binary64.mantissaBits = 53 := rfl
  have hleast : Format.binary64.minExponent = -1074 := rfl
  obtain ⟨hpos, hmantissa, hexponent, -⟩ := h
  have hfull : (m * 2 ^ (52 - m.log2)).log2 = 52 := by
    rw [log2_shifted hpos]
    omega
  refine ⟨52 - m.log2, ?_, hfull, by omega, by omega⟩
  rw [Placed, Format.targetExponent, totalExponent, hfull, hbits, hleast]
  omega

theorem fitted_fitted (w : BitVec Format.binary32.numBits) :
    fitted .binary32 (unpack .binary64
        ((fitted .binary64 (unpack .binary32 w)).pack .binary64)) = unpack .binary32 w := by
  cases hw : unpack .binary32 w with
  | infinity sign => cases sign <;> rfl
  | notANumber => rfl
  | zero sign => cases sign <;> rfl
  | finite sign m e hm =>
    have hsingle := unpack_single hw
    obtain ⟨k, hplaced, hfull, hrange⟩ := hsingle.widened
    rw [fitted, hplaced.round_coarser hm, unpack_pack_full _ hfull hrange]
    exact hsingle.placed.round_finer hm sign k

theorem narrow_widen (x : Float32) : narrow (widen x) = x := by
  have hword : ⟨(unpack .binary32 x.toBits.toBitVec).pack .binary32⟩ = x.toBits :=
    congrArg Float32.toBits (Float32.ofBits_toBits x)
  rw [narrow, widen_toBits, fitted_fitted, hword, Float32.ofBits_toBits]

end TubePreamp
