import Mathlib
import TubePreamp.Decimal
import TubePreamp.Sample
import TubePreamp.Stage

/-!
Sample arithmetic read as the exact arithmetic of an ordered field. Constants keep the value that
they have in double precision, and the circle constant may be any positive number.
-/

namespace TubePreamp

def exactly (K : Type) [Field K] (x : Float) : K :=
  let r := (Binary.ofDouble x).toFraction
  let magnitude : K := (r.num : K) / (r.den : K)
  if Binary.isNegative x then -magnitude else magnitude

def Binary.IsPositive (x : Float) : Prop :=
  Binary.isNegative x = false ∧ 0 < (Binary.ofDouble x).toFraction.num

instance (x : Float) : Decidable (Binary.IsPositive x) :=
  inferInstanceAs (Decidable (_ ∧ _))

def Binary.Ascending (x y : Float) : Prop :=
  Binary.isNegative x = false ∧ Binary.isNegative y = false ∧
    (Binary.ofDouble x).toFraction.num * (Binary.ofDouble y).toFraction.den ≤
      (Binary.ofDouble y).toFraction.num * (Binary.ofDouble x).toFraction.den

instance (x y : Float) : Decidable (Binary.Ascending x y) :=
  inferInstanceAs (Decidable (_ ∧ _))

theorem fraction_den_pos (v : Binary) : 0 < v.toFraction.den :=
  Nat.two_pow_pos _

theorem exactly_of_sign {K : Type} [Field K] {x : Float} (hx : Binary.isNegative x = false) :
    exactly K x =
      ((Binary.ofDouble x).toFraction.num : K) / ((Binary.ofDouble x).toFraction.den : K) := by
  simp only [exactly, hx, Bool.false_eq_true, if_false]

/-- What exact arithmetic takes from outside: the circle constant, and how a number is rounded when
it leaves for the log or for a sample stream. -/
class Exact (K : Type) [Field K] [LinearOrder K] [IsStrictOrderedRing K] where
  pi : K
  pi_pos : 0 < pi
  toDouble : K → Float
  toSingle : K → Float32

variable {K : Type} [Field K] [LinearOrder K] [IsStrictOrderedRing K]

instance [Exact K] : Sample K where
  decideLE := inferInstance
  decideLT := inferInstance
  pi := Exact.pi
  isFinite _ := true
  ofDouble := exactly K
  ofSingle x := exactly K (widen x)
  toDouble := Exact.toDouble
  toSingle := Exact.toSingle

instance : Exact ℚ where
  pi := 355 / 113
  pi_pos := by norm_num
  toDouble x := Float.ofInt x.num / Float.ofNat x.den
  toSingle x := Float32.ofInt x.num / Float32.ofNat x.den

theorem exactly_nonneg {x : Float} (hx : Binary.isNegative x = false) : 0 ≤ exactly K x := by
  rw [exactly_of_sign hx]
  positivity

theorem exactly_pos {x : Float} (hx : Binary.IsPositive x) : 0 < exactly K x := by
  obtain ⟨hsign, hnum⟩ := hx
  have hden := fraction_den_pos (Binary.ofDouble x)
  rw [exactly_of_sign hsign]
  positivity

theorem exactly_le {x y : Float} (h : Binary.Ascending x y) : exactly K x ≤ exactly K y := by
  obtain ⟨hx, hy, hcross⟩ := h
  have hxden : (0 : K) < (Binary.ofDouble x).toFraction.den :=
    Nat.cast_pos.mpr (fraction_den_pos _)
  have hyden : (0 : K) < (Binary.ofDouble y).toFraction.den :=
    Nat.cast_pos.mpr (fraction_den_pos _)
  rw [exactly_of_sign hx, exactly_of_sign hy, div_le_div_iff₀ hxden hyden]
  exact_mod_cast hcross

theorem exactly_whole {x : Float} {n : Nat} (hx : Binary.isNegative x = false)
    (h : (Binary.ofDouble x).toFraction.num = n * (Binary.ofDouble x).toFraction.den) :
    exactly K x = n := by
  have hden : ((Binary.ofDouble x).toFraction.den : K) ≠ 0 :=
    Nat.cast_ne_zero.mpr (fraction_den_pos _).ne'
  rw [exactly_of_sign hx, div_eq_iff hden, h, Nat.cast_mul]

theorem exactly_two : exactly K 2 = 2 := by
  have h : exactly K 2 = (2 : Nat) := exactly_whole (by decide +kernel) (by decide +kernel)
  simpa using h

theorem exactly_three : exactly K 3 = 3 := by
  have h : exactly K 3 = (3 : Nat) := exactly_whole (by decide +kernel) (by decide +kernel)
  simpa using h

@[simp] theorem ofDouble_two [Exact K] : (Sample.ofDouble 2 : K) = 2 := exactly_two

@[simp] theorem ofDouble_three [Exact K] : (Sample.ofDouble 3 : K) = 3 := exactly_three

end TubePreamp

/-!
The sample period of a usable rate. It is rounded in double precision before exact arithmetic begins,
and a positive rate leaves it with a positive sign.
-/

namespace TubePreamp

open Float.Model

/-- Without a minus sign; no number at all counts as such. -/
def Upward : UnpackedFloat → Prop
  | .infinity s => s = .positive
  | .notANumber => True
  | .zero s => s = .positive
  | .finite s .. => s = .positive

def Above : UnpackedFloat → Prop
  | .infinity s => s = .positive
  | .finite s .. => s = .positive
  | _ => False

theorem packComponents_msb (spec : Format) (e : BitVec spec.exponentBits)
    (m : BitVec spec.mantissaBitsWithoutImplicit) :
    (UnpackedFloat.packComponents spec .positive e m).msb = false := by
  simp [UnpackedFloat.packComponents, UnpackedFloat.Sign.toBitVec, BitVec.msb_append]

theorem pack_msb (spec : Format) {u : UnpackedFloat} (hu : Upward u) :
    (UnpackedFloat.pack spec u).msb = false := by
  cases u with
  | infinity s =>
    obtain rfl : s = .positive := hu
    exact packComponents_msb _ _ _
  | notANumber => exact packComponents_msb _ _ _
  | zero s =>
    obtain rfl : s = .positive := hu
    exact packComponents_msb _ _ _
  | finite s m e hm =>
    obtain rfl : s = .positive := hu
    unfold UnpackedFloat.pack
    dsimp only
    split
    · exact packComponents_msb _ _ _
    · split <;> exact packComponents_msb _ _ _

theorem roundWithAccuracy_upward (spec : Format) (m : Nat) (e : Int)
    (acc : UnpackedFloat.Accuracy) :
    Upward (UnpackedFloat.roundWithAccuracy spec .positive m e acc) := by
  unfold UnpackedFloat.roundWithAccuracy
  dsimp only
  split <;> rfl

theorem div_upward (spec : Format) {u v : UnpackedFloat} (hu : Above u) (hv : Above v) :
    Upward (UnpackedFloat.div spec u v) := by
  cases u with
  | infinity s =>
    obtain rfl : s = .positive := hu
    cases v with
    | infinity t => trivial
    | finite t m e hm =>
      obtain rfl : t = .positive := hv
      rfl
    | _ => exact hv.elim
  | finite s m e hm =>
    obtain rfl : s = .positive := hu
    cases v with
    | infinity t =>
      obtain rfl : t = .positive := hv
      rfl
    | finite t m' e' hm' =>
      obtain rfl : t = .positive := hv
      exact roundWithAccuracy_upward _ _ _ _
    | _ => exact hv.elim
  | _ => exact hu.elim

theorem above_of_lt {u : UnpackedFloat} (hu : UnpackedFloat.lt (.zero .positive) u = true) :
    Above u := by
  cases u with
  | infinity s =>
    cases s with
    | positive => rfl
    | negative => exact absurd hu Bool.false_ne_true
  | notANumber => exact absurd hu Bool.false_ne_true
  | zero s => exact absurd hu Bool.false_ne_true
  | finite s m e hm =>
    cases s with
    | positive => rfl
    | negative => exact absurd hu Bool.false_ne_true

theorem above_of_pos {x : Float} (hx : 0 < x) : Above x.toModel.unpack := by
  have hzero : (0 : Float).toModel.unpack = .zero .positive := rfl
  have hlt : ((0 : Float).toModel.unpack).lt x.toModel.unpack = true := of_decide_eq_true hx
  rw [hzero] at hlt
  exact above_of_lt hlt

theorem isNegative_of_msb {x : Float} (hx : x.toModel.toBits.toBitVec.msb = false) :
    Binary.isNegative x = false := by
  have hlt := BitVec.toNat_lt_of_msb_false hx
  have hbits : x.toBits.toNat < Nat.pow 2 63 := hlt
  rw [Binary.isNegative, Nat.div_eq_of_lt hbits]
  rfl

theorem isNegative_div {x y : Float} (hx : 0 < x) (hy : 0 < y) :
    Binary.isNegative (x / y) = false := by
  apply isNegative_of_msb
  exact pack_msb _ (div_upward _ (above_of_pos hx) (above_of_pos hy))

variable {K : Type} [Field K] [LinearOrder K] [IsStrictOrderedRing K] [Exact K]

theorem samplePeriod_nonneg {rate : Float} (hrate : 0 < rate) :
    0 ≤ (samplePeriod rate : K) :=
  exactly_nonneg (isNegative_div (by decide +kernel) hrate)

end TubePreamp
