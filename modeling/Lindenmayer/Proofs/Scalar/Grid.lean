import Lindenmayer.Proofs.Scalar.Nearest
import Mathlib

/-! Rounding to a binary format. A number of some size is rounded to the multiples of a power of
two, the grid for its size; an operation rounds what it would be without rounding. -/

namespace Lindenmayer.Scalar
open Float.Model Float.Model.UnpackedFloat

/-- The multiples of `2 ^ T` are what a number of the size of `v` is rounded to. -/
structure Grid (spec : Format) (v : ℚ) (T : ℤ) : Prop where
  min_le : spec.minExponent ≤ T
  lt : v < 2^(T+spec.mantissaBits)
  le : spec.minExponent < T → 2^(T+spec.mantissaBits-1) ≤ v

/-- A positive number is stored as `m · 2 ^ e` with as many bits in `m` as there are. -/
structure Canonical (spec : Format) (m : ℕ) (e : ℤ) : Prop where
  pos : 0 < m
  min_le : spec.minExponent ≤ e
  lt : m < 2^spec.mantissaBits
  le : spec.minExponent < e → 2^(spec.mantissaBits-1) ≤ m

/-- `n · 2 ^ T` as it is stored. It has one bit too many if `n` is the next power of two. -/
def settle (spec : Format) (s : Sign) (n : ℕ) (T : ℤ) : UnpackedFloat :=
  if h : n = 0 then .zero s
  else if n = 2^spec.mantissaBits then
    .finite s (2^(spec.mantissaBits-1)) (T+1) (Nat.two_pow_pos _)
  else .finite s n T (Nat.pos_of_ne_zero h)

/-- The number `v`, which is not negative, rounds to `u` with the sign `s`. -/
def Rounds (spec : Format) (s : Sign) (v : ℚ) (u : UnpackedFloat) : Prop :=
  ∃ T n, Grid spec v T ∧ Nearest n (v/2^T) ∧ u = settle spec s n T

/-! ### The size of a number -/

section
variable {m : ℕ} {e : ℤ}

theorem succ_le_two_pow_totalExponent (m : ℕ) (e : ℤ) :
    (m+1 : ℚ)*2^e ≤ 2^totalExponent m e := by
  have h : (m+1 : ℚ) ≤ 2^(m.log2+1) := by exact_mod_cast Nat.lt_log2_self (n := m)
  unfold totalExponent
  rw [zpow_add₀ two_ne_zero]
  exact mul_le_mul_of_nonneg_right (by exact_mod_cast h) (by positivity)

theorem lt_two_pow_totalExponent (m : ℕ) (e : ℤ) : (m : ℚ)*2^e < 2^totalExponent m e :=
  (mul_lt_mul_of_pos_right (lt_add_one _) (by positivity)).trans_le
    (succ_le_two_pow_totalExponent m e)

theorem two_pow_totalExponent_le (hm : 0 < m) : (2 : ℚ)^(totalExponent m e-1) ≤ m*2^e := by
  have h : (2 : ℚ)^m.log2 ≤ m := by exact_mod_cast Nat.log2_self_le hm.ne'
  rw [totalExponent,show (m.log2 : ℤ)+1+e-1 = m.log2+e by omega,zpow_add₀ two_ne_zero]
  exact mul_le_mul_of_nonneg_right (by exact_mod_cast h) (by positivity)

theorem zpow_lt_zpow_two {a b : ℤ} : (2 : ℚ)^a < 2^b ↔ a < b := zpow_lt_zpow_iff_right₀ one_lt_two

theorem zpow_eq_pow_mul {a b : ℤ} {n : ℕ} (h : a = n+b) : (2 : ℚ)^a = 2^n*2^b := by
  rw [h,zpow_add₀ two_ne_zero,zpow_natCast]

theorem totalExponent_eq {t : ℤ} (hm : 0 < m) (hle : (2 : ℚ)^(t-1) ≤ m*2^e)
    (hlt : m*2^e < (2 : ℚ)^t) : totalExponent m e = t := by
  have h₁ := zpow_lt_zpow_two.1 ((two_pow_totalExponent_le hm).trans_lt hlt)
  have h₂ := zpow_lt_zpow_two.1 (hle.trans_lt (lt_two_pow_totalExponent m e))
  omega

end

/-! ### The grid of a number -/

section
variable {spec : Format} {s : Sign} {v : ℚ} {T : ℤ}

theorem grid_targetExponent {t : ℤ} (hle : (2 : ℚ)^(t-1) ≤ v) (hlt : v < 2^t) :
    Grid spec v (spec.targetExponent t) where
  min_le := le_max_right _ _
  lt := hlt.trans_le (zpow_le_zpow_right₀ one_le_two (by unfold Format.targetExponent; omega))
  le h := (zpow_le_zpow_right₀ one_le_two
    (by unfold Format.targetExponent at h ⊢; omega)).trans hle

theorem Grid.nearest_le {n : ℕ} (h : Grid spec v T) (hn : Nearest n (v/2^T)) :
    n ≤ 2^spec.mantissaBits := by
  have hlt : v/2^T < (2^spec.mantissaBits : ℕ) := by
    rw [div_lt_iff₀ (by positivity)]
    have := h.lt
    rw [zpow_add₀ two_ne_zero,mul_comm] at this
    exact_mod_cast this
  have h₂ : (n : ℚ) < (2^spec.mantissaBits : ℕ)+1 := by linarith [hn.above]
  exact Nat.lt_succ_iff.1 (by exact_mod_cast h₂)

/-! ### Rounding with what was cut off -/

theorem shiftToExponent_eq {e : ℤ} (m : ℕ) (acc : Accuracy) (he : e ≤ T) :
    shiftToExponent m e acc T =
      (ExtendedMantissa.ofMantissaAndAccuracy m acc >>> (T-e).toNat,T) := by
  show (_,e+((T-e).toNat : ℤ)) = _
  rw [show e+((T-e).toNat : ℤ) = T by omega]

theorem shift_settled {n : ℕ} (hmin : spec.minExponent ≤ T) (hn : n < 2^spec.mantissaBits) :
    shiftToTargetExponent spec n T .exact = (⟨n,false,false⟩,T) := by
  have hlog : n.log2 < spec.mantissaBits := by
    rcases Nat.eq_zero_or_pos n with rfl | hpos
    · simp [Format.mantissaBits]
    · exact (Nat.log2_lt hpos.ne').2 hn
  have hk : (spec.targetExponent (totalExponent n T)-T).toNat = 0 := by
    unfold Format.targetExponent totalExponent
    omega
  show (ExtendedMantissa.ofMantissaAndAccuracy n .exact >>> _,T+((_ : ℕ) : ℤ)) = _
  rw [hk,Int.natCast_zero,add_zero]
  rfl

theorem shift_carry (hmin : spec.minExponent ≤ T) :
    shiftToTargetExponent spec (2^spec.mantissaBits) T .exact =
      (⟨2^(spec.mantissaBits-1),false,false⟩,T+1) := by
  obtain ⟨p,hp⟩ : ∃ p, spec.mantissaBits = p+1 := ⟨_,Nat.add_comm 1 _⟩
  have htarget : spec.targetExponent (totalExponent (2^spec.mantissaBits) T) = T+1 := by
    rw [Format.targetExponent,totalExponent,Nat.log2_two_pow]
    omega
  unfold shiftToTargetExponent
  rw [htarget,shiftToExponent_eq _ _ (by omega),hp,show (T+1-T).toNat = 1 by omega]
  show (ExtendedMantissa.shiftRightOne ⟨2^(p+1),false,false⟩,T+1) = _
  simp [ExtendedMantissa.shiftRightOne,pow_succ]

/-- What is stored of a mantissa that has been shifted. -/
def stored (s : Sign) (r : ExtendedMantissa × ℤ) : UnpackedFloat :=
  if h : r.1.mantissa = 0 then .zero s else .finite s r.1.mantissa r.2 (Nat.pos_of_ne_zero h)

theorem stored_shift {n : ℕ} (hmin : spec.minExponent ≤ T) (hn : n ≤ 2^spec.mantissaBits) :
    stored s (shiftToTargetExponent spec n T .exact) = settle spec s n T := by
  unfold stored settle
  rcases Nat.lt_or_eq_of_le hn with hlt | rfl
  · simp only [shift_settled hmin hlt,hlt.ne,if_false]
  · simp [shift_carry hmin]

/-- Rounding what `m` and its accuracy show of `x`, if no bits have to be added first. -/
theorem rounds_withAccuracy {m : ℕ} {e : ℤ} {acc : Accuracy} {x : ℚ} (hm : 0 < m)
    (hx : Shows (.ofMantissaAndAccuracy m acc) x)
    (he : e ≤ spec.targetExponent (totalExponent m e)) :
    Rounds spec s (x*2^e) (roundWithAccuracy spec s m e acc) := by
  have hle : (m : ℚ) ≤ x := by
    have := hx.mantissa_le
    rwa [mantissa_ofMantissaAndAccuracy] at this
  have hlt : x < m+1 := by
    have := hx.lt_mantissa_succ
    rwa [mantissa_ofMantissaAndAccuracy] at this
  have hgrid : Grid spec (x*2^e) (spec.targetExponent (totalExponent m e)) :=
    grid_targetExponent
      ((two_pow_totalExponent_le hm).trans (mul_le_mul_of_nonneg_right hle (by positivity)))
      ((mul_lt_mul_of_pos_right hlt (by positivity)).trans_le (succ_le_two_pow_totalExponent m e))
  have hshift : shiftToTargetExponent spec m e acc = _ := shiftToExponent_eq m acc he
  generalize spec.targetExponent (totalExponent m e) = T at he hgrid hshift
  have hn : Nearest (ExtendedMantissa.ofMantissaAndAccuracy m acc >>> (T-e).toNat).roundedMantissa
      (x*2^e/2^T) := by
    have hpow : (2 : ℚ)^T = 2^(T-e).toNat*2^e := zpow_eq_pow_mul (by omega)
    rw [hpow,mul_div_mul_right _ _ (by positivity)]
    exact (hx.shift _).nearest
  refine ⟨T,_,hgrid,hn,?_⟩
  show stored s (shiftToTargetExponent spec (shiftToTargetExponent spec m e acc).1.roundedMantissa
    (shiftToTargetExponent spec m e acc).2 .exact) = _
  rw [hshift]
  exact stored_shift hgrid.min_le (hgrid.nearest_le hn)

/-! ### Operations -/

/-- Rounding a number of any size; bits are added if there are too few. -/
theorem rounds_round {m : ℕ} (hm : 0 < m) (e : ℤ) : Rounds spec s (m*2^e) (round spec s m e) := by
  generalize hk : (e-spec.targetExponent (totalExponent m e)).toNat = k
  have hvalue : (m : ℚ)*2^e = (m <<< k : ℕ)*2^(e-k) := by
    rw [Nat.shiftLeft_eq,zpow_sub₀ two_ne_zero]
    push_cast
    rw [zpow_natCast]
    field_simp
  have hm' : 0 < m <<< k := by
    rw [Nat.shiftLeft_eq]
    positivity
  have htotal : totalExponent (m <<< k) (e-k) = totalExponent m e := by
    refine totalExponent_eq hm' ?_ ?_ <;> rw [← hvalue]
    · exact two_pow_totalExponent_le hm
    · exact lt_two_pow_totalExponent m e
  have hround : round spec s m e = roundWithAccuracy spec s (m <<< k) (e-k) .exact := by
    rw [← hk]
    rfl
  rw [hround,hvalue]
  refine rounds_withAccuracy hm' (Shows.exact _) ?_
  rw [htotal]
  omega

variable {s₁ s₂ : Sign} {m₁ m₂ : ℕ} {e₁ e₂ : ℤ}

theorem rounds_mul (h₁ : 0 < m₁) (h₂ : 0 < m₂) (hbits : 2^(spec.mantissaBits-1) ≤ m₁) :
    Rounds spec (s₁*s₂) (m₁*2^e₁*(m₂*2^e₂))
      (mul spec (.finite s₁ m₁ e₁ h₁) (.finite s₂ m₂ e₂ h₂)) := by
  have hpos := Nat.mul_pos h₁ h₂
  have hlog : spec.mantissaBits-1 ≤ (m₁*m₂).log2 :=
    (Nat.le_log2 hpos.ne').2 (hbits.trans (Nat.le_mul_of_pos_right m₁ h₂))
  have hvalue : (m₁ : ℚ)*2^e₁*(m₂*2^e₂) = (m₁*m₂ : ℕ)*2^(e₁+e₂) := by
    rw [zpow_add₀ two_ne_zero]
    push_cast
    ring
  rw [hvalue]
  refine rounds_withAccuracy hpos (Shows.exact _) ?_
  unfold Format.targetExponent totalExponent
  omega

theorem rounds_div (h₁ : 0 < m₁) (h₂ : 0 < m₂)
    (hmin : spec.minExponent+spec.mantissaBits ≤ totalExponent m₁ e₁-totalExponent m₂ e₂) :
    Rounds spec (s₁/s₂) (m₁*2^e₁/(m₂*2^e₂))
      (div spec (.finite s₁ m₁ e₁ h₁) (.finite s₂ m₂ e₂ h₂)) := by
  generalize ht : totalExponent m₁ e₁-totalExponent m₂ e₂ = t at hmin
  generalize hT : min (e₁-e₂) (spec.targetExponent t) = T
  generalize hk : (e₁-e₂-T).toNat = k
  have hdiv : div spec (.finite s₁ m₁ e₁ h₁) (.finite s₂ m₂ e₂ h₂) =
      roundWithAccuracy spec (s₁/s₂) (m₁ <<< k/m₂) T (accuracyOfFraction (m₁ <<< k%m₂) m₂) := by
    rw [← hk,← hT,← ht]
    rfl
  have hvalue : (m₁ : ℚ)*2^e₁/(m₂*2^e₂) = ((m₁ <<< k : ℕ) : ℚ)/m₂*2^T := by
    have hpow : (2 : ℚ)^e₁ = 2^k*2^T*2^e₂ := by
      rw [zpow_eq_pow_mul (show e₁ = k+(T+e₂) by omega),zpow_add₀ two_ne_zero,mul_assoc]
    rw [Nat.shiftLeft_eq,hpow]
    push_cast
    field_simp
  have hx := Shows.fraction (m₁ <<< k) h₂
  have hsucc := hx.lt_mantissa_succ
  rw [mantissa_ofMantissaAndAccuracy] at hsucc
  have hlt : (2 : ℚ)^(t-1) < ((m₁ <<< k : ℕ) : ℚ)/m₂*2^T := by
    rw [← hvalue,lt_div_iff₀ (by positivity)]
    have hpow : (2 : ℚ)^(totalExponent m₁ e₁-1) = 2^(t-1)*2^totalExponent m₂ e₂ := by
      rw [← zpow_add₀ two_ne_zero,← ht]
      congr 1
      omega
    exact (mul_lt_mul_of_pos_left (lt_two_pow_totalExponent m₂ e₂) (by positivity)).trans_le
      (hpow ▸ two_pow_totalExponent_le h₁)
  have hpos : 0 < m₁ <<< k/m₂ := by
    by_contra hzero
    rw [Nat.eq_zero_of_not_pos hzero,Nat.cast_zero,zero_add] at hsucc
    have h := hlt.trans (mul_lt_mul_of_pos_right hsucc (by positivity))
    rw [one_mul] at h
    have := zpow_lt_zpow_two.1 h
    have : 0 < spec.mantissaBits := by unfold Format.mantissaBits; omega
    unfold Format.targetExponent at hT
    omega
  rw [hdiv,hvalue]
  refine rounds_withAccuracy hpos hx ?_
  have htotal : t ≤ totalExponent (m₁ <<< k/m₂) T := by
    have := zpow_lt_zpow_two.1 (hlt.trans ((mul_lt_mul_of_pos_right hsucc (by positivity)).trans_le
      (succ_le_two_pow_totalExponent _ T)))
    omega
  unfold Format.targetExponent at hT ⊢
  omega

end

end Lindenmayer.Scalar
