import Lindenmayer.Proofs.Scalar.Packing
import Lindenmayer.Json.Number

/-! Arithmetic in double precision on positive numbers of ordinary size: every operation gives the
exact result rounded once. -/

namespace Lindenmayer.Scalar
open Float.Model Float.Model.UnpackedFloat

/-- What `y` stores is the positive number `w`, with all its bits. -/
def Holds (y : Float) (w : ℚ) : Prop :=
  Normal .binary64 .positive w y.toModel.unpack

/-- A number well inside the range of what is stored with all its bits. -/
structure Ordinary (v : ℚ) : Prop where
  le : 1/2^254 ≤ v
  ge : v ≤ 2^254

variable {x y : Float} {v w : ℚ}

theorem Ordinary.zpow_le (h : Ordinary v) : (2 : ℚ)^(-254 : ℤ) ≤ v := by
  refine le_of_eq_of_le ?_ h.le
  rw [one_div,zpow_neg]
  rfl

/-- A number that is neither too small for all its bits nor too large for any exponent. -/
theorem holds_of_bounds {u : UnpackedFloat} (h : Rounds .binary64 .positive v u)
    (hlow : (2 : ℚ)^(-1022 : ℤ) ≤ v) (hhigh : v ≤ 15/8*2^1023) :
    ∃ w, Holds (.ofModel (.pack u)) w ∧ Near .binary64 w v := by
  obtain ⟨w,hw,hnear⟩ := h.normal hlow
  refine ⟨w,?_,hnear⟩
  obtain ⟨m,e,hm,rfl,hc,hbits,rfl⟩ := hw
  have hmax : e ≤ maxExponent .binary64 := by
    have hpos : (0 : ℚ) < v := lt_of_lt_of_le (by positivity) hlow
    have herror : v/2^53 ≤ v/16 := div_le_div_of_nonneg_left hpos.le (by norm_num) (by norm_num)
    have hlt : (2 : ℚ)^(52+e) < 2^(1024 : ℤ) :=
      calc (2 : ℚ)^(52+e) = 2^52*2^e := zpow_add₀ two_ne_zero _ _
        _ ≤ m*2^e := mul_le_mul_of_nonneg_right (by exact_mod_cast hbits) (by positivity)
        _ ≤ v+v/2^53 := sub_le_iff_le_add'.1 (abs_le.1 hnear.error).2
        _ < 16/15*v := by linarith
        _ ≤ 16/15*(15/8*2^1023) := mul_le_mul_of_nonneg_left hhigh (by norm_num)
        _ = 2*2^1023 := by rw [← mul_assoc]; congr 1; norm_num
        _ = 2^(1024 : ℤ) := (pow_succ' 2 1023).symm
    have := zpow_lt_zpow_two.1 hlt
    have : maxExponent .binary64 = 971 := by decide
    omega
  refine ⟨m,e,hm,?_,hc,hbits,rfl⟩
  exact unpack_pack hc hmax hbits

theorem holds_of_rounds {u : UnpackedFloat} (h : Rounds .binary64 .positive v u)
    (hv : Ordinary v) : ∃ w, Holds (.ofModel (.pack u)) w ∧ Near .binary64 w v := by
  refine holds_of_bounds h ((zpow_le_zpow_right₀ one_le_two (by decide)).trans hv.zpow_le) ?_
  calc v ≤ 2^254 := hv.ge
    _ ≤ 2^1023 := pow_le_pow_right₀ one_le_two (by decide)
    _ ≤ 15/8*2^1023 := le_mul_of_one_le_left (by positivity) (by norm_num)

theorem Holds.mul (hx : Holds x v) (hy : Holds y w) (h : Ordinary (v*w)) :
    ∃ z, Holds (x*y) z ∧ Near .binary64 z (v*w) := by
  obtain ⟨m,e,hm,hux,-,hbits,rfl⟩ := hx
  obtain ⟨m',e',hm',huy,-,-,rfl⟩ := hy
  have hxy : x*y = .ofModel (.pack (.mul .binary64 x.toModel.unpack y.toModel.unpack)) := rfl
  rw [hxy,hux,huy]
  exact holds_of_rounds (rounds_mul hm hm' hbits) h

theorem Holds.div (hx : Holds x v) (hy : Holds y w) (h : Ordinary (v/w)) :
    ∃ z, Holds (x/y) z ∧ Near .binary64 z (v/w) := by
  obtain ⟨m,e,hm,hux,-,-,rfl⟩ := hx
  obtain ⟨m',e',hm',huy,-,-,rfl⟩ := hy
  have hxy : x/y = .ofModel (.pack (.div .binary64 x.toModel.unpack y.toModel.unpack)) := rfl
  have hmin : Format.binary64.minExponent+Format.binary64.mantissaBits ≤
      totalExponent m e-totalExponent m' e' := by
    have hlt : (m : ℚ)*2^e/(m'*2^e') < 2^(totalExponent m e-(totalExponent m' e'-1)) := by
      rw [zpow_sub₀ two_ne_zero]
      exact div_lt_div₀ (lt_two_pow_totalExponent m e) (two_pow_totalExponent_le hm')
        (by positivity) (by positivity)
    have := zpow_lt_zpow_two.1 (h.zpow_le.trans_lt hlt)
    have : Format.binary64.minExponent+Format.binary64.mantissaBits = -1021 := by decide
    omega
  rw [hxy,hux,huy]
  exact holds_of_rounds (rounds_div hm hm' hmin) h

/-! ### Integers and powers of ten -/

theorem short_natCast {spec : Format} {n : ℕ} (h : n < 2^spec.mantissaBits) : Short spec n :=
  ⟨n,0,h,by simp⟩

theorem holds_round {n : ℕ} (h : 0 < n) (hv : Ordinary n) :
    ∃ w, Holds (.ofModel (.pack (round .binary64 .positive n 0))) w ∧ Near .binary64 w n := by
  have hrounds : Rounds .binary64 .positive (n*2^(0 : ℤ)) (round .binary64 .positive n 0) :=
    rounds_round h 0
  rw [zpow_zero,mul_one] at hrounds
  exact holds_of_rounds hrounds hv

theorem ofNat_eq {n : ℕ} (h : 0 < n) (hn : n < 2^53) :
    Float.ofNat n = .ofModel (.pack (round .binary64 .positive n 0))*
      .ofModel (.pack (round .binary64 .positive 1 0)) := by
  have hsize : n.toUInt64.toNat = n := by
    rw [Nat.toUInt64_eq,UInt64.toNat_ofNat',Nat.mod_eq_of_lt (by omega)]
  have hone : Float.ofBits 0x3FF0000000000000 =
    .ofModel (.pack (round .binary64 .positive 1 0)) := by decide +kernel
  have hfloat : n.toUInt64.toFloat = .ofModel (.pack (.ofNat .binary64 n.toUInt64.toNat)) := rfl
  have hround : UnpackedFloat.ofNat .binary64 n = round .binary64 .positive n 0 := by
    have hpos : compare (n : ℤ) 0 = .gt := by
      rw [Int.compare_eq_gt]
      omega
    simp only [UnpackedFloat.ofNat,UnpackedFloat.ofInt,UnpackedFloat.normalize,hpos,
      Int.toNat_natCast]
  unfold Float.ofNat
  show Float.ofScientific n false 0 = _
  rw [Float.ofScientific,dif_pos ⟨hn,by omega⟩,← hone,← hround,hfloat,hsize]
  rfl

theorem ordinary_natCast {n : ℕ} (h : 0 < n) (hn : n ≤ 2^254) : Ordinary n where
  le := by
    have hone : (1 : ℚ) ≤ n := by exact_mod_cast h
    exact (by norm_num : (1/2^254 : ℚ) ≤ 1).trans hone
  ge := by exact_mod_cast hn

theorem holds_ofNat {n : ℕ} (h : 0 < n) (hn : n < 2^53) : Holds (.ofNat n) n := by
  have hv : Ordinary n :=
    ordinary_natCast h (hn.le.trans (Nat.pow_le_pow_right two_pos (by decide)))
  obtain ⟨a,ha,hna⟩ := holds_round h hv
  obtain ⟨b,hb,hnb⟩ := holds_round one_pos (ordinary_natCast one_pos Nat.one_le_two_pow)
  have han : a = n := hna.exact (short_natCast hn)
  have hbone : b = (1 : ℕ) := hnb.exact (short_natCast (by decide))
  subst han hbone
  rw [Nat.cast_one] at hb
  have hone : (n : ℚ)*1 = n := mul_one _
  obtain ⟨z,hz,hnz⟩ := ha.mul hb (hone.symm ▸ hv)
  rw [hone] at hnz
  rw [ofNat_eq h hn,← hnz.exact (short_natCast hn)]
  exact hz

theorem powerOfTen_eq : ∀ n ≤ 22,
    Json.powerOfTen n = .ofModel (.pack (round .binary64 .positive (10^n) 0)) := by
  decide +kernel

theorem rounds_ofScientific {n : ℕ} (hn : n ≤ 308) :
    Rounds .binary64 .positive (10^n : ℕ) (UnpackedFloat.ofScientific .binary64 1 n) := by
  have hmul : UnpackedFloat.ofScientific .binary64 1 n = .mul .binary64
      (.finite .positive (1 <<< 53) (-53) (by decide))
      (.finite .positive (10^(n : ℤ).toNat) 0 (by positivity)) := by
    have hroom : (308 : ℤ) ≤ 2^Format.binary64.exponentBits := by decide
    rw [UnpackedFloat.ofScientific,dif_neg one_ne_zero,if_neg (by omega),if_neg (by omega),
      if_pos (by omega)]
    rfl
  have hvalue : ((10^n : ℕ) : ℚ) =
      (1 <<< 53 : ℕ)*2^(-53 : ℤ)*((10^(n : ℤ).toNat : ℕ)*2^(0 : ℤ)) := by
    norm_num [Nat.shiftLeft_eq]
  rw [hmul,hvalue]
  exact rounds_mul _ _ (by decide)

/-- Every power of ten that is divided by is stored with all its bits. -/
theorem holds_powerOfTen {n : ℕ} (hn : n ≤ 308) :
    ∃ w, Holds (Json.powerOfTen n) w ∧ Near .binary64 w (10^n : ℕ) := by
  by_cases hsmall : n ≤ 22
  · rw [powerOfTen_eq n hsmall]
    refine holds_round (by positivity) (ordinary_natCast (by positivity) ?_)
    calc 10^n ≤ 10^22 := Nat.pow_le_pow_right (by omega) hsmall
      _ ≤ 2^254 := by norm_num
  · have heq : Json.powerOfTen n = .ofModel (.pack (UnpackedFloat.ofScientific .binary64 1 n)) := by
      unfold Json.powerOfTen Float.ofScientific
      rw [dif_neg (by omega)]
      rfl
    rw [heq]
    refine holds_of_bounds (rounds_ofScientific hn) ?_ ?_
    · calc (2 : ℚ)^(-1022 : ℤ) ≤ 2^(0 : ℤ) := zpow_le_zpow_right₀ one_le_two (by decide)
        _ = 1 := zpow_zero 2
        _ ≤ (10^n : ℕ) := by exact_mod_cast Nat.one_le_pow' n 9
    · have hle : 10^n*8 ≤ 15*2^1023 :=
        calc 10^n*8 ≤ 10^308*8 := Nat.mul_le_mul_right 8 (Nat.pow_le_pow_right (by omega) hn)
          _ ≤ 15*2^1023 := by decide +kernel
      rw [div_mul_eq_mul_div,le_div_iff₀ (by norm_num)]
      exact_mod_cast hle

theorem short_powerOfTen {n : ℕ} (hn : n ≤ 22) : Short .binary64 (10^n : ℕ) := by
  refine ⟨5^n,n,(Nat.pow_le_pow_right (by omega) hn).trans_lt (by decide),?_⟩
  rw [show 10 = 5*2 from rfl,mul_pow]
  push_cast
  rw [zpow_natCast]

end Lindenmayer.Scalar
