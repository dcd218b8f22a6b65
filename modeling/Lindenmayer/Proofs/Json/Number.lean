import Lindenmayer.Proofs.Scalar.Double
import Lindenmayer.Proofs.Scalar.Order
import Lindenmayer.Proofs.Json.Thorough

/-! What the numbers of a document can be. One that is too large for single precision is infinite,
but none that is read is NaN: the powers of ten that it is multiplied with or divided by are finite
and not zero. -/

namespace Lindenmayer.Scalar
open Float.Model Float.Model.UnpackedFloat

variable {spec : Format} {u : UnpackedFloat} {s : Sign} {m : ℕ} {e : ℤ}

/-! ### Arithmetic without NaN -/

theorem unpack_packComponents_ne {E : BitVec spec.exponentBits}
    {M : BitVec spec.mantissaBitsWithoutImplicit} (h : E ≠ -1#_) :
    unpack spec (packComponents spec s E M) ≠ .notANumber := by
  by_cases hE : E = 0#_
  · subst hE
    rw [unpack_small h]
    split <;> simp
  · rw [unpack_normal h hE]
    simp

theorem unpack_pack_infinity (spec : Format) (s : Sign) :
    unpack spec (packedInfinity spec s) = .infinity s :=
  (unpack_special rfl).trans (if_pos rfl)

theorem unpack_pack_ne (hu : u ≠ .notANumber) : unpack spec (pack spec u) ≠ .notANumber := by
  have hzero : (0#_ : BitVec spec.exponentBits) ≠ -1#_ := by simp [Nat.ne_of_gt spec.he]
  cases u with
  | notANumber => exact absurd rfl hu
  | infinity s => simp [UnpackedFloat.pack,unpack_pack_infinity]
  | zero s => simp [UnpackedFloat.pack]
  | finite s m e hm =>
    simp only [UnpackedFloat.pack]
    split
    case isTrue => simp [unpack_pack_infinity]
    case isFalse hlt =>
      split
      case isTrue =>
        refine unpack_packComponents_ne fun h => ?_
        have hnat := congrArg BitVec.toNat h
        rw [BitVec.toNat_ofNat,BitVec.neg_one_eq_allOnes,BitVec.toNat_allOnes,
          Nat.mod_eq_of_lt (by omega)] at hnat
        omega
      case isFalse => exact unpack_packComponents_ne hzero

theorem roundWithAccuracy_ne (spec : Format) (s : Sign) (m : ℕ) (e : ℤ) (a : Accuracy) :
    roundWithAccuracy spec s m e a ≠ .notANumber := by
  simp only [roundWithAccuracy]
  split <;> simp

theorem round_ne (spec : Format) (s : Sign) (m : ℕ) (e : ℤ) : round spec s m e ≠ .notANumber :=
  roundWithAccuracy_ne spec s _ _ .exact

theorem ofInt_ne (spec : Format) (k : ℤ) : UnpackedFloat.ofInt spec k ≠ .notANumber := by
  unfold UnpackedFloat.ofInt UnpackedFloat.normalize
  split
  case h_2 => simp
  all_goals exact round_ne spec _ _ 0

theorem fit_ne (hu : u ≠ .notANumber) : fit spec u ≠ .notANumber := by
  cases u with
  | finite s m e => exact round_ne spec s m e
  | notANumber => exact absurd rfl hu
  | _ => simp [fit]

theorem neg_ne (hu : u ≠ .notANumber) : u.neg ≠ .notANumber := by
  cases u with
  | notANumber => exact absurd rfl hu
  | _ => simp [UnpackedFloat.neg]

theorem mul_ne (hu : u ≠ .notANumber) (hm : 0 < m) :
    UnpackedFloat.mul spec u (.finite s m e hm) ≠ .notANumber := by
  cases u with
  | finite => exact roundWithAccuracy_ne spec _ _ _ .exact
  | notANumber => exact absurd rfl hu
  | _ => simp [UnpackedFloat.mul]

theorem div_ne (hu : u ≠ .notANumber) (hm : 0 < m) :
    UnpackedFloat.div spec u (.finite s m e hm) ≠ .notANumber := by
  cases u with
  | finite => exact roundWithAccuracy_ne spec _ _ _ _
  | notANumber => exact absurd rfl hu
  | _ => simp [UnpackedFloat.div]

theorem ofScientific_ne (spec : Format) (k : ℕ) :
    UnpackedFloat.ofScientific spec k 0 ≠ .notANumber := by
  unfold UnpackedFloat.ofScientific
  by_cases hk : k = 0
  · simp [hk]
  · have hroom : (0 : ℤ) < 2^spec.exponentBits := by positivity
    rw [dif_neg hk,if_neg hroom.not_gt,if_neg (by omega),if_pos le_rfl]
    exact mul_ne (by simp) _

/-! ### The numbers that are stored -/

/-- The double is no NaN. -/
def Numeric (y : Float) : Prop := y.toModel.unpack ≠ .notANumber

variable {x y : Float}

theorem Numeric.neg (hx : Numeric x) : Numeric (-x) := unpack_pack_ne (neg_ne hx)

theorem Numeric.mul (hx : Numeric x) {hm : 0 < m} (hy : y.toModel.unpack = .finite s m e hm) :
    Numeric (x*y) := by
  have hxy : (x*y).toModel.unpack = unpack .binary64
    (pack .binary64 (.mul .binary64 x.toModel.unpack y.toModel.unpack)) := rfl
  rw [Numeric,hxy,hy]
  exact unpack_pack_ne (mul_ne hx hm)

theorem Numeric.div (hx : Numeric x) {hm : 0 < m} (hy : y.toModel.unpack = .finite s m e hm) :
    Numeric (x/y) := by
  have hxy : (x/y).toModel.unpack = unpack .binary64
    (pack .binary64 (.div .binary64 x.toModel.unpack y.toModel.unpack)) := rfl
  rw [Numeric,hxy,hy]
  exact unpack_pack_ne (div_ne hx hm)

theorem numeric_ofNat (k : ℕ) : Numeric (.ofNat k) := by
  unfold Float.ofNat
  show Numeric (Float.ofScientific k false 0)
  unfold Float.ofScientific
  split
  · have hone : (Float.ofBits 0x3FF0000000000000).toModel.unpack =
        .finite .positive (2^52) (-52) (by decide) := rfl
    exact Numeric.mul (unpack_pack_ne (ofInt_ne .binary64 _)) hone
  · exact unpack_pack_ne (ofScientific_ne .binary64 k)

theorem single_ofNat_ne (k : ℕ) : (Float32.ofNat k).toModel.unpack ≠ .notANumber := by
  unfold Float32.ofNat
  show (Float32.ofScientific k false 0).toModel.unpack ≠ _
  unfold Float32.ofScientific
  split
  · have hone : (Float32.ofBits 0x3F800000).toModel.unpack =
        .finite .positive (2^23) (-23) (by decide) := rfl
    have hmul : (k.toUInt64.toFloat32*Float32.ofBits 0x3F800000).toModel.unpack =
      unpack .binary32 (pack .binary32 (.mul .binary32 k.toUInt64.toFloat32.toModel.unpack
        (Float32.ofBits 0x3F800000).toModel.unpack)) := rfl
    show (k.toUInt64.toFloat32*Float32.ofBits 0x3F800000).toModel.unpack ≠ _
    rw [hmul,hone]
    exact unpack_pack_ne (mul_ne (unpack_pack_ne (ofInt_ne .binary32 _)) _)
  · exact unpack_pack_ne (ofScientific_ne .binary32 k)

theorem single_ofInt_ne (k : ℤ) : (Float32.ofInt k).toModel.unpack ≠ .notANumber := by
  cases k with
  | ofNat n => exact single_ofNat_ne n
  | negSucc n => exact unpack_pack_ne (neg_ne (single_ofNat_ne n.succ))

theorem isFinite_of_ne_nan {x : Float32} (hx : x ≠ .nan) : x.isFinite = !x.isInf := by
  have hunpack := mt unpack_eq_notANumber_iff.1 hx
  show x.toModel.unpack.isFinite = !x.toModel.unpack.isInf
  cases h : x.toModel.unpack with
  | notANumber => exact absurd h hunpack
  | _ => rfl

/-! ### What is read -/

theorem powerOfTen_finite {n : ℕ} (hn : n ≤ 308) :
    ∃ m e hm, (Json.powerOfTen n).toModel.unpack = .finite .positive m e hm := by
  obtain ⟨-,⟨m,e,hm,hunpack,-⟩,-⟩ := holds_powerOfTen hn
  exact ⟨m,e,hm,hunpack⟩

end Lindenmayer.Scalar

namespace Lindenmayer.Json
open Scalar

theorem numeric_divideByPower {x : Float} (hx : Numeric x) (n : ℕ) :
    Numeric (divideByPower x n) := by
  induction x, n using divideByPower.induct with
  | case1 x n hn =>
    obtain ⟨_,_,_,hpower⟩ := powerOfTen_finite hn
    rw [divideByPower,dif_pos hn]
    exact hx.div hpower
  | case2 x n hn hzero => rwa [divideByPower,dif_neg hn,if_pos hzero]
  | case3 x n hn hzero ih =>
    obtain ⟨_,_,_,hpower⟩ := powerOfTen_finite le_rfl
    rw [divideByPower,dif_neg hn,if_neg hzero]
    exact ih (hx.div hpower)

theorem numeric_scale? {x y : Float} {e : ℤ} (hx : Numeric x) (h : scale? x e = some y) :
    Numeric y := by
  unfold scale? at h
  extract_lets z at h
  split_ifs at h with hneg hzero hlarge hinf
  · obtain rfl := Option.some.inj h
    exact numeric_divideByPower hx _
  · obtain rfl := Option.some.inj h
    exact hx
  · obtain rfl := Option.some.inj h
    obtain ⟨_,_,_,hpower⟩ := powerOfTen_finite (n := e.toNat) (by omega)
    exact hx.mul hpower

theorem Numeral.numeric_floating? {n : Numeral} {y : Float} (h : n.floating? = some y) :
    Numeric y := by
  obtain ⟨x,hx,rfl⟩ := Option.map_eq_some_iff.1 h
  have hnumeric := numeric_scale? (numeric_ofNat _) hx
  split
  · exact hnumeric.neg
  · exact hnumeric

theorem Numeral.single_ne_nan {n : Numeral} {v : Number} (h : n.number? = some v) :
    v.single ≠ .nan := by
  rw [ne_eq,← unpack_eq_notANumber_iff]
  unfold Numeral.number? at h
  split at h
  · cases h
    exact single_ofInt_ne _
  · obtain ⟨y,hy,rfl⟩ := Option.map_eq_some_iff.1 h
    exact unpack_pack_ne (fit_ne (Numeral.numeric_floating? hy))

/-- A number that is read is a number. -/
theorem toSingle_ne_nan {v : Json} {x : Float32} (h : v.toSingle = .ok x) : x ≠ .nan := by
  cases v with
  | number n =>
    cases hn : n.number? with
    | none => simp [toSingle,valueOf,hn,malformed,Except.map] at h
    | some k =>
      obtain rfl : k.single = x := by simpa [toSingle,valueOf,hn,Except.map] using h
      exact Numeral.single_ne_nan hn
  | _ => exact absurd h (refuse_ne_ok _ _ _)

end Lindenmayer.Json
