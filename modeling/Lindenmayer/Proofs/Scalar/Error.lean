import Lindenmayer.Proofs.Scalar.Grid

/-! How far rounding moves a number of ordinary size: by half a unit of its last place at most, and
not at all if it has no more bits than the format. -/

namespace Lindenmayer.Scalar
open Float.Model Float.Model.UnpackedFloat

/-- A number that needs no more bits than the format has. -/
def Short (spec : Format) (v : ℚ) : Prop :=
  ∃ (m : ℕ) (e : ℤ), m < 2^spec.mantissaBits ∧ v = m*2^e

/-- The number `w` is `v` up to one rounding. -/
structure Near (spec : Format) (w v : ℚ) : Prop where
  error : |w-v| ≤ v/2^spec.mantissaBits
  exact : Short spec v → w = v

/-- What is stored is `w`, with the sign `s`, and has all its bits. -/
def Normal (spec : Format) (s : Sign) (w : ℚ) (u : UnpackedFloat) : Prop :=
  ∃ m e h, u = .finite s m e h ∧ Canonical spec m e ∧ 2^(spec.mantissaBits-1) ≤ m ∧ w = m*2^e

variable {spec : Format} {s : Sign} {v : ℚ} {u : UnpackedFloat} {T : ℤ}

theorem mantissaBits_pos (spec : Format) : 0 < spec.mantissaBits := by
  unfold Format.mantissaBits
  omega

theorem two_pow_mantissaBits (spec : Format) :
    2^spec.mantissaBits = 2*2^(spec.mantissaBits-1) := by
  rw [← pow_succ',Nat.sub_add_cancel (mantissaBits_pos spec)]

theorem Near.le_two_mul {w : ℚ} (h : Near spec w v) (hv : 0 ≤ v) : w ≤ 2*v := by
  have hone : v/2^spec.mantissaBits ≤ v := div_le_self hv (one_le_pow₀ one_le_two)
  linarith [(abs_le.1 h.error).2]

theorem Near.le_mul_two {w : ℚ} (h : Near spec w v) (hv : 0 ≤ v) : v ≤ 2*w := by
  have hhalf : v/2^spec.mantissaBits ≤ v/2 := by
    have hpow : (1 : ℚ) ≤ 2^(spec.mantissaBits-1) := one_le_pow₀ one_le_two
    refine div_le_div_of_nonneg_left hv two_pos ?_
    rw [← Nat.sub_add_cancel (mantissaBits_pos spec),pow_succ]
    linarith
  linarith [(abs_le.1 h.error).1]

theorem Grid.two_pow_le (h : Grid spec v T) (hv : 2^(spec.minExponent+spec.mantissaBits-1) ≤ v) :
    (2 : ℚ)^(T+spec.mantissaBits-1) ≤ v := by
  rcases h.min_le.lt_or_eq with hlt | rfl
  · exact h.le hlt
  · exact hv

theorem Grid.two_pow_le_div (h : (2 : ℚ)^(T+spec.mantissaBits-1) ≤ v) :
    ((2^(spec.mantissaBits-1) : ℕ) : ℚ) ≤ v/2^T := by
  rw [le_div_iff₀ (by positivity)]
  refine le_of_eq_of_le ?_ h
  have := mantissaBits_pos spec
  push_cast
  exact (zpow_eq_pow_mul (by omega)).symm

theorem normal_settle {n : ℕ} (hmin : spec.minExponent ≤ T) (hlow : 2^(spec.mantissaBits-1) ≤ n)
    (hhigh : n ≤ 2^spec.mantissaBits) : Normal spec s (n*2^T) (settle spec s n T) := by
  have hpos : 0 < n := (Nat.two_pow_pos _).trans_le hlow
  unfold settle
  rw [dif_neg hpos.ne']
  rcases hhigh.lt_or_eq with hlt | rfl
  · rw [if_neg hlt.ne]
    exact ⟨n,T,hpos,rfl,⟨hpos,hmin,hlt,fun _ => hlow⟩,hlow,rfl⟩
  · rw [if_pos rfl]
    have htwice := two_pow_mantissaBits spec
    have hpos' := Nat.two_pow_pos (spec.mantissaBits-1)
    refine ⟨_,_,hpos',rfl,⟨hpos',by omega,by omega,fun _ => le_rfl⟩,le_rfl,?_⟩
    rw [htwice,zpow_add_one₀ two_ne_zero]
    push_cast
    ring

theorem Rounds.normal (h : Rounds spec s v u)
    (hv : 2^(spec.minExponent+spec.mantissaBits-1) ≤ v) :
    ∃ w, Normal spec s w u ∧ Near spec w v := by
  obtain ⟨T,n,hgrid,hn,rfl⟩ := h
  have hle := hgrid.two_pow_le hv
  have hunits := Grid.two_pow_le_div hle
  have hlow : 2^(spec.mantissaBits-1) ≤ n := by
    have : ((2^(spec.mantissaBits-1) : ℕ) : ℚ) < n+1 := by linarith [hn.below]
    exact Nat.lt_succ_iff.1 (by exact_mod_cast this)
  have hv' : v/2^T*2^T = v := div_mul_cancel₀ _ (by positivity)
  refine ⟨n*2^T,normal_settle hgrid.min_le hlow (hgrid.nearest_le hn),?_,?_⟩
  · have hdist : |(n : ℚ)-v/2^T| ≤ 1/2 := by
      rw [abs_le]
      exact ⟨by linarith [hn.below],by linarith [hn.above]⟩
    have htwice : (2 : ℚ)^spec.mantissaBits = 2*((2^(spec.mantissaBits-1) : ℕ) : ℚ) := by
      exact_mod_cast two_pow_mantissaBits spec
    calc |(n : ℚ)*2^T-v| = |(n : ℚ)-v/2^T| * 2^T := by
          conv_lhs => rw [← hv',← sub_mul,abs_mul,abs_of_pos (show (0 : ℚ) < 2^T by positivity)]
      _ ≤ 1/2*2^T := mul_le_mul_of_nonneg_right hdist (by positivity)
      _ ≤ v/2^spec.mantissaBits := by
        rw [le_div_iff₀ (by positivity),htwice]
        have := (le_div_iff₀ (by positivity)).1 hunits
        linarith
  · rintro ⟨m,e,hm,rfl⟩
    -- As a number of ordinary size it is on the grid, or it would have too many bits.
    have hTe : T ≤ e := by
      have hlt : (m : ℚ)*2^e < 2^(e+spec.mantissaBits) := by
        rw [zpow_add₀ two_ne_zero,mul_comm,zpow_natCast]
        exact mul_lt_mul_of_pos_left (by exact_mod_cast hm) (by positivity)
      have := zpow_lt_zpow_two.1 (hle.trans_lt hlt)
      omega
    have hunit : (m : ℚ)*2^e/2^T = (m*2^(e-T).toNat : ℕ) := by
      have hpow : (2 : ℚ)^e = 2^(e-T).toNat*2^T := zpow_eq_pow_mul (by omega)
      rw [hpow]
      push_cast
      field_simp
    have hn' : n = m*2^(e-T).toNat := by
      rw [hunit] at hn
      exact hn.unique (nearest_natCast _)
    rw [← hv',hunit,hn']

end Lindenmayer.Scalar
