import Lindenmayer.Proofs.Scalar.Double

/-! A reader's last step: an integer times a power of ten in double precision. The power is rounded
and then the product or the quotient, so two roundings are all that separates it from the number
that was written; with a small power and a short number there is none. -/

namespace Lindenmayer.Scalar
open Float.Model Float.Model.UnpackedFloat Json

variable {x y : Float} {v w p q : ℚ}

theorem Holds.beq_zero (h : Holds x w) : (x == 0) = false := by
  obtain ⟨m,e,hm,hu,-⟩ := h
  have hzero : (0 : Float) = .ofModel (.pack (.zero .positive)) := by decide +kernel
  show UnpackedFloat.beq x.toModel.unpack (0 : Float).toModel.unpack = false
  rw [hu,hzero]
  rfl

theorem Holds.isInf (h : Holds x w) : x.isInf = false := by
  obtain ⟨m,e,hm,hu,-⟩ := h
  show x.toModel.unpack.isInf = false
  rw [hu]
  rfl

theorem scale?_neg (x : Float) {n : ℕ} (h₀ : 0 < n) (hn : n ≤ 308) :
    scale? x (-n) = some (x/powerOfTen n) := by
  rw [scale?,if_pos (by omega),Int.natAbs_neg,Int.natAbs_natCast,divideByPower,dif_pos hn]

theorem scale?_natCast {n : ℕ} (hn : n ≤ 308) (hx : Holds x v) (hy : Holds (x*powerOfTen n) w) :
    scale? x n = some (x*powerOfTen n) := by
  rw [scale?,if_neg (by omega),if_neg (by simp [hx.beq_zero]),if_neg (by omega),Int.toNat_natCast]
  simp [hy.isInf]

/-- Two roundings, the first in a factor. -/
theorem error_mul (hv : 0 < v) (hp : Near .binary64 p q) (hq : 0 < q)
    (hw : Near .binary64 w (v*p)) : |w-v*q| ≤ v*q/2^51 := by
  have h₁ : |v*(p-q)| ≤ v*q/2^53 := by
    rw [abs_mul,abs_of_pos hv,mul_div_assoc]
    exact mul_le_mul_of_nonneg_left hp.error hv.le
  have h₂ : v*p ≤ 2*(v*q) := by
    have := mul_le_mul_of_nonneg_left (hp.le_two_mul hq.le) hv.le
    linarith
  have h₃ : |w-v*p| ≤ v*p/2^53 := hw.error
  calc |w-v*q| = |(w-v*p)+v*(p-q)| := by ring_nf
    _ ≤ |w-v*p| + |v*(p-q)| := abs_add_le _ _
    _ ≤ 2*(v*q)/2^53+v*q/2^53 := by
      refine add_le_add (h₃.trans ?_) h₁
      exact div_le_div_of_nonneg_right h₂ (by positivity)
    _ ≤ v*q/2^51 := by
      have : 0 < v*q := mul_pos hv hq
      rw [← add_div,div_le_div_iff₀ (by positivity) (by positivity)]
      linarith

/-- Two roundings, the first in the divisor. -/
theorem error_div (hv : 0 < v) (hp : Near .binary64 p q) (hq : 0 < q)
    (hw : Near .binary64 w (v/p)) : |w-v/q| ≤ v/q/2^51 := by
  have hhalf : q ≤ 2*p := hp.le_mul_two hq.le
  have hp₀ : 0 < p := by linarith
  have h₂ : v/p ≤ 2*(v/q) := by
    rw [div_le_iff₀ hp₀,mul_assoc,div_mul_eq_mul_div,mul_div_assoc',le_div_iff₀ hq]
    nlinarith
  have h₁ : |v/p-v/q| ≤ v/p/2^53 := by
    have hsub : v/p-v/q = v/p*((q-p)/q) := by field_simp
    rw [hsub,abs_mul,abs_of_pos (div_pos hv hp₀),abs_div,abs_of_pos hq,abs_sub_comm,
      ← mul_one_div (v/p)]
    refine mul_le_mul_of_nonneg_left ?_ (div_pos hv hp₀).le
    rw [div_le_iff₀ hq]
    exact hp.error.trans_eq (by rw [div_eq_mul_one_div,mul_comm]; rfl)
  have h₃ : |w-v/p| ≤ v/p/2^53 := hw.error
  calc |w-v/q| = |(w-v/p)+(v/p-v/q)| := by ring_nf
    _ ≤ |w-v/p| + |v/p-v/q| := abs_add_le _ _
    _ ≤ 2*(v/q)/2^53+2*(v/q)/2^53 :=
      add_le_add (h₃.trans (div_le_div_of_nonneg_right h₂ (by positivity)))
        (h₁.trans (div_le_div_of_nonneg_right h₂ (by positivity)))
    _ = v/q/2^51 := by ring

/-! ### The value that is read -/

theorem powerOfTen_bounds {n : ℕ} (hn : n < 60) (hp : Near .binary64 p (10^n : ℕ)) :
    1/2 ≤ p ∧ p ≤ 2^201 := by
  have hone : (1 : ℚ) ≤ (10^n : ℕ) := by exact_mod_cast Nat.one_le_pow _ _ (by omega)
  have hle : ((10^n : ℕ) : ℚ) ≤ 2^200 := by
    have h : 10^n ≤ 2^200 := (Nat.pow_le_pow_right (by omega) hn.le).trans (by norm_num)
    exact_mod_cast h
  exact ⟨by linarith [hp.le_mul_two (by positivity)],by linarith [hp.le_two_mul (by positivity)]⟩

section
variable (hv₁ : 1 ≤ v) (hv₂ : v ≤ 2^53) (hp₁ : 1/2 ≤ p) (hp₂ : p ≤ 2^201)
include hv₁ hv₂ hp₁ hp₂

theorem ordinary_mul : Ordinary (v*p) := by
  constructor
  · exact (show (1/2^254 : ℚ) ≤ 1*(1/2) by norm_num).trans (by gcongr)
  · exact (show v*p ≤ 2^53*2^201 by gcongr).trans (by norm_num)

theorem ordinary_div : Ordinary (v/p) := by
  constructor
  · exact (show (1/2^254 : ℚ) ≤ 1/2^201 by norm_num).trans (by gcongr)
  · exact (show v/p ≤ 2^53/(1/2) by gcongr).trans (by norm_num)

end

/-- The value read for `n · 10 ^ k`. -/
structure Read (n : ℕ) (k : ℤ) (w : ℚ) : Prop where
  error : |w-n*10^k| ≤ n*10^k/2^51
  exact : k.natAbs ≤ 22 → Short .binary64 (n*10^k) → w = n*10^k

theorem read_scale? {n : ℕ} {k : ℤ} (h : 0 < n) (hn : n < 2^53) (hk : k.natAbs < 60) :
    ∃ y w, scale? (.ofNat n) k = some y ∧ Holds y w ∧ Read n k w := by
  have hx := holds_ofNat h hn
  obtain ⟨p,hp,hpq⟩ := holds_powerOfTen (hk.le.trans (by decide))
  obtain ⟨hp₁,hp₂⟩ := powerOfTen_bounds hk hpq
  have hv₁ : (1 : ℚ) ≤ n := by exact_mod_cast h
  have hv₂ : (n : ℚ) ≤ 2^53 := by exact_mod_cast hn.le
  have hv : (0 : ℚ) < n := by exact_mod_cast h
  have hq : (0 : ℚ) < (10^k.natAbs : ℕ) := by positivity
  have hpexact (hsmall : k.natAbs ≤ 22) : p = (10^k.natAbs : ℕ) :=
    hpq.exact (short_powerOfTen hsmall)
  rcases Int.lt_or_le k 0 with hneg | hnonneg
  · have hkn : k = -(k.natAbs : ℤ) := by omega
    have hpow : (n : ℚ)*10^k = n/(10^k.natAbs : ℕ) := by
      conv_lhs => rw [hkn,zpow_neg,zpow_natCast]
      push_cast
      rfl
    obtain ⟨w,hw,hnear⟩ := hx.div hp (ordinary_div hv₁ hv₂ hp₁ hp₂)
    refine ⟨_,w,by rw [hkn]; exact scale?_neg _ (by omega) (by omega),by simpa using hw,?_,?_⟩
    · rw [hpow]
      exact error_div hv hpq hq hnear
    · intro hsmall hshort
      rw [hpexact hsmall,← hpow] at hnear
      exact hnear.exact hshort
  · have hkn : k = (k.natAbs : ℤ) := by omega
    have hpow : (n : ℚ)*10^k = n*(10^k.natAbs : ℕ) := by
      conv_lhs => rw [hkn,zpow_natCast]
      push_cast
      rfl
    obtain ⟨w,hw,hnear⟩ := hx.mul hp (ordinary_mul hv₁ hv₂ hp₁ hp₂)
    refine ⟨_,w,by rw [hkn]; exact scale?_natCast (by omega) hx (by simpa using hw),
      by simpa using hw,?_,?_⟩
    · rw [hpow]
      exact error_mul hv hpq hq hnear
    · intro hsmall hshort
      rw [hpexact hsmall,← hpow] at hnear
      exact hnear.exact hshort

end Lindenmayer.Scalar
