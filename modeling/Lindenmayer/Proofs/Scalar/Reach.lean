import Lindenmayer.Proofs.Scalar.Error
import Lindenmayer.Scalar.Shortest

/-! The numbers that round to a given one: those within the bounds by which a shortest decimal is
searched for. -/

namespace Lindenmayer.Scalar
open Float.Model Float.Model.UnpackedFloat Shortest

namespace Shortest.Reach

/-- The number `x`, counted in the units whose quarters the bounds count, is within them. -/
def Contains (r : Reach) (x : ℚ) : Prop :=
  if r.closed then r.lower ≤ 4*x ∧ 4*x ≤ r.upper else r.lower < 4*x ∧ 4*x < r.upper

variable {r : Reach} {x : ℚ}

theorem Contains.le (h : r.Contains x) : r.lower ≤ 4*x ∧ 4*x ≤ r.upper := by
  unfold Contains at h
  split at h
  · exact h
  · exact ⟨h.1.le,h.2.le⟩

theorem contains_of_lt (h₁ : r.lower < 4*x) (h₂ : 4*x < r.upper) : r.Contains x := by
  unfold Contains
  split
  · exact ⟨h₁.le,h₂.le⟩
  · exact ⟨h₁,h₂⟩

theorem Contains.closed_of_eq (h : r.Contains x) (hx : 4*x = r.lower ∨ 4*x = r.upper) :
    r.closed = true := by
  by_contra hopen
  rw [Contains,if_neg hopen] at h
  rcases hx with hx | hx
  · exact h.1.ne' hx
  · exact h.2.ne hx

theorem mem_iff {q t k : ℕ} (hq : 0 < q) : r.mem q t k = true ↔ r.Contains (k*t/(4*q)) := by
  have hq' : (0 : ℚ) < q := by exact_mod_cast hq
  have hx : 4*((k*t : ℚ)/(4*q)) = k*t/q := by field_simp
  unfold mem Contains
  rw [hx]
  split
  · rw [decide_eq_true_iff,le_div_iff₀ hq',div_le_iff₀ hq']
    norm_cast
  · rw [decide_eq_true_iff,lt_div_iff₀ hq',div_lt_iff₀ hq']
    norm_cast

end Shortest.Reach

variable {spec : Format} {m : ℕ} {e : ℤ} {x : ℚ}

theorem reach_upper (spec : Format) (m : ℕ) (e : ℤ) : ((reach spec m e).upper : ℚ) = 4*m+2 := by
  simp [reach]

theorem reach_lower_le (spec : Format) (hm : 0 < m) (e : ℤ) :
    (4*m-2 : ℚ) ≤ (reach spec m e).lower := by
  have h : 4*m ≤ (reach spec m e).lower+2 := by
    unfold reach
    dsimp only
    split <;> omega
  have h' : (4*m : ℚ) ≤ (reach spec m e).lower+2 := by exact_mod_cast h
  linarith

theorem reach_lower_of_power (hm : 0 < m) (hp : m = 2^(spec.mantissaBits-1))
    (he : spec.minExponent < e) : ((reach spec m e).lower : ℚ) = 4*m-1 := by
  have h : (reach spec m e).lower+1 = 4*m := by
    unfold reach
    dsimp only
    rw [if_pos ⟨hp,he⟩]
    omega
  have h' : ((reach spec m e).lower : ℚ)+1 = 4*m := by exact_mod_cast h
  linarith

theorem nearest_of_reach (hm : 0 < m) (h : (reach spec m e).Contains x) : Nearest m x := by
  have hlow := reach_lower_le spec hm e
  have hup := reach_upper spec m e
  refine ⟨by linarith [h.le.2],by linarith [h.le.1],fun ht => ?_⟩
  have hclosed : (reach spec m e).closed = true := by
    refine h.closed_of_eq ?_
    rcases ht with ht | ht
    · exact .inr (by linarith)
    · exact .inl (le_antisymm (by linarith) h.le.1)
  simpa [reach] using hclosed

theorem le_of_zpow_le {a b : ℤ} {y : ℚ} (h : (2 : ℚ)^a ≤ y*2^b) : (2 : ℚ)^(a-b) ≤ y := by
  rwa [zpow_sub₀ two_ne_zero,div_le_iff₀ (by positivity)]

theorem lt_of_lt_zpow {a b : ℤ} {y : ℚ} (h : y*2^b < (2 : ℚ)^a) : y < (2 : ℚ)^(a-b) := by
  rwa [zpow_sub₀ two_ne_zero,lt_div_iff₀ (by positivity)]

variable {T : ℤ}

theorem Grid.le_of_reach (hc : Canonical spec m e) (hx : (reach spec m e).Contains x)
    (hg : Grid spec (x*2^e) T) : T ≤ e := by
  by_contra hlt
  have hle := le_of_zpow_le (hg.le (by have := hc.min_le; omega))
  have hmx : x < 2^spec.mantissaBits := by
    have hm : (m : ℚ)+1 ≤ 2^spec.mantissaBits := by exact_mod_cast hc.lt
    have := hx.le.2
    rw [reach_upper] at this
    linarith
  rw [← zpow_natCast] at hmx
  have := zpow_lt_zpow_two.1 (hle.trans_lt hmx)
  omega

/-- On a finer grid it can be only just below a power of two, and is rounded up to it. -/
theorem Grid.carry_of_reach (hc : Canonical spec m e) (hx : (reach spec m e).Contains x)
    (hg : Grid spec (x*2^e) T) (hlt : T < e) :
    T = e-1 ∧ m = 2^(spec.mantissaBits-1) ∧ Nearest (2*m) (2*x) := by
  have hmin := hg.min_le
  have hbits := mantissaBits_pos spec
  have hlow := hc.le (by omega)
  have hxT := lt_of_lt_zpow hg.lt
  have hm : m = 2^(spec.mantissaBits-1) := by
    have hxm : x < ((2^(spec.mantissaBits-1) : ℕ) : ℚ) := by
      refine hxT.trans_le ?_
      push_cast
      rw [← zpow_natCast]
      exact zpow_le_zpow_right₀ one_le_two (by omega)
    have hmx : (m : ℚ) < (2^(spec.mantissaBits-1) : ℕ)+1 := by
      have := reach_lower_le spec hc.pos e
      linarith [hx.le.1]
    have : m < 2^(spec.mantissaBits-1)+1 := by exact_mod_cast hmx
    omega
  have hquarter : (4*m-1 : ℚ) ≤ 4*x := by
    have he : spec.minExponent < e := by omega
    rw [← reach_lower_of_power hc.pos hm he]
    exact hx.le.1
  have hone : (1 : ℚ) ≤ m := by exact_mod_cast hc.pos
  have hpow : (m : ℚ) = 2^((spec.mantissaBits : ℤ)-1) := by
    rw [hm]
    push_cast
    rw [← zpow_natCast]
    congr 1
    omega
  refine ⟨?_,hm,?_⟩
  · have hhalf : (2 : ℚ)^((spec.mantissaBits : ℤ)-2) < x := by
      have : (m : ℚ) = 2^((spec.mantissaBits : ℤ)-2)*2 := by
        rw [hpow,← zpow_add_one₀ two_ne_zero]
        congr 1
        omega
      linarith
    have := zpow_lt_zpow_two.1 (hhalf.trans hxT)
    omega
  · have hxm : x < m := by
      refine hxT.trans_le ?_
      rw [hpow]
      exact zpow_le_zpow_right₀ one_le_two (by omega)
    refine ⟨?_,?_,fun _ => by omega⟩ <;> push_cast <;> linarith

/-- Whatever is within its bounds rounds to a number. -/
theorem Rounds.eq_of_reach {s : Sign} {u : UnpackedFloat} (hc : Canonical spec m e)
    (hx : (reach spec m e).Contains x) (h : Rounds spec s (x*2^e) u) :
    u = .finite s m e hc.pos := by
  obtain ⟨T,n,hg,hn,rfl⟩ := h
  rcases (hg.le_of_reach hc hx).lt_or_eq with hlt | rfl
  · obtain ⟨rfl,hm,hm'⟩ := hg.carry_of_reach hc hx hlt
    have hunit : x*2^e/2^(e-1) = 2*x := by
      rw [zpow_sub_one₀ two_ne_zero]
      field_simp
    rw [hunit] at hn
    have htwice := two_pow_mantissaBits spec
    rw [hn.unique hm',settle,dif_neg (by have := hc.pos; omega),if_pos (by omega)]
    simp [hm]
  · rw [mul_div_cancel_right₀ _ (by positivity)] at hn
    rw [hn.unique (nearest_of_reach hc.pos hx),settle,dif_neg hc.pos.ne',if_neg hc.lt.ne]

end Lindenmayer.Scalar
