import Lindenmayer.Proofs.Scalar.Gap
import Lindenmayer.Proofs.Scalar.Scaling

/-! Singles and their shortest decimals: where the decimal is between the bounds of its single. It
stays clear of both, or it is one of them, but for the few that come near. -/

namespace Lindenmayer.Scalar
open Float.Model Float.Model.UnpackedFloat Shortest

variable {m k : ℕ} {e p : ℤ}

/-! ### Where the decimal is -/

/-- Within the bounds, by more than two roundings in double precision can take away. -/
def Margin (r : Reach) (q t k : ℕ) : Prop :=
  r.lower*q*2^25+q < k*t*2^25 ∧ k*t*2^25+q < r.upper*q*2^25

instance (r : Reach) (q t k : ℕ) : Decidable (Margin r q t k) := inferInstanceAs (Decidable (_ ∧ _))

/-- Below a power of two the bound is nearer, and the decimal need not be the nearest one. -/
theorem margin_power : ∀ i < 253,
    let e : ℤ := (i : ℕ)-148
    let d := shortest .binary32 (2^23) e
    Margin (reach .binary32 (2^23) e) (quarter e d.exponent) (ten e d.exponent) d.digits := by
  decide +kernel

theorem margin_of_fine {r : Reach} {q t x k : ℕ} (hl : r.lower+2 = x) (hu : r.upper = x+2)
    (hk : OnGrid r q t x k) (hfine : 10*t < 36*q) : Margin r q t k := by
  obtain ⟨h₁,h₂⟩ := hk.near hl
  have hl' : r.lower*q+2*q = x*q := by rw [← hl,add_mul]
  have hu' : r.upper*q = x*q+2*q := by rw [hu,add_mul]
  unfold Margin
  omega

theorem margin_of_coarse {r : Reach} {q t k : ℕ} (hmem : r.mem q t k = true)
    (hl : (q : ℤ) < 2^25*|(k*t : ℤ)-r.lower*q|) (hu : (q : ℤ) < 2^25*|(k*t : ℤ)-r.upper*q|) :
    Margin r q t k := by
  obtain ⟨h₁,h₂⟩ := Reach.bounds_of_mem hmem
  rw [abs_of_nonneg (by rw [sub_nonneg]; exact_mod_cast h₁)] at hl
  rw [abs_of_nonpos (by rw [sub_nonpos]; exact_mod_cast h₂)] at hu
  unfold Margin
  constructor <;> zify <;> linarith

theorem canonical_single (hc : Canonical .binary32 m e) :
    m < 2^24 ∧ -149 ≤ e ∧ (-149 < e → 2^23 ≤ m) :=
  ⟨hc.lt,hc.min_le,hc.le⟩

/-- One of the bounds itself. -/
def Meets (r : Reach) (q t k : ℕ) : Prop :=
  k*t = r.lower*q ∨ k*t = r.upper*q

theorem position_of_coarse {r : Reach} (hm : 0 < m) (h : Coarse m e p k) (hl : r.lower+2 = 4*m)
    (hu : r.upper = 4*m+2) (hmem : r.mem (quarter e p) (ten e p) k = true) :
    Margin r (quarter e p) (ten e p) k ∨ Meets r (quarter e p) (ten e p) k ∨
      (e,p,k) ∈ nearMisses := by
  have hlow : (2*m-1)*(2*quarter e p) = r.lower*quarter e p := by
    rw [← mul_assoc]
    congr 1
    omega
  have hhigh : (2*m+1)*(2*quarter e p) = r.upper*quarter e p := by
    rw [← mul_assoc]
    congr 1
    omega
  by_contra hnot
  rw [not_or,not_or] at hnot
  obtain ⟨hmargin,hmeets,hmiss⟩ := hnot
  have far {j b : ℕ} (hj : j%2 = 1) (hb : j*(2*quarter e p) = b*quarter e p)
      (hne : ¬ k*ten e p = b*quarter e p) :
      (quarter e p : ℤ) < 2^25*|(k*ten e p : ℤ)-b*quarter e p| := by
    have hgap := h.gap hj
    have hb' : (j : ℤ)*(2*quarter e p) = b*quarter e p := by exact_mod_cast hb
    rw [hb,hb'] at hgap
    exact (hgap.resolve_left hne).resolve_right hmiss
  exact hmargin (margin_of_coarse hmem (far (by omega) hlow fun h => hmeets (.inl h))
    (far (by omega) hhigh fun h => hmeets (.inr h)))

/-- The decimal stays clear of the bounds, or is one, or is one of those that come near. -/
theorem position_shortest (hc : Canonical .binary32 m e) (he : e ≤ 104) :
    let d := shortest .binary32 m e
    let r := reach .binary32 m e
    Margin r (quarter e d.exponent) (ten e d.exponent) d.digits ∨
      Meets r (quarter e d.exponent) (ten e d.exponent) d.digits ∨
      (e,d.exponent,d.digits) ∈ nearMisses := by
  intro d r
  obtain ⟨hlt,hmin,hfull⟩ := canonical_single hc
  have hd : Found .binary32 m e d := found_shortest hc.pos
  by_cases hpower : m = 2^(Format.binary32.mantissaBits-1) ∧ Format.binary32.minExponent < e
  · obtain ⟨hm,hmin'⟩ := hpower
    have hm' : m = 2^23 := hm
    have he' : -149 < e := hmin'
    have h := margin_power (e+148).toNat (by omega)
    rw [show ((e+148).toNat : ℤ)-148 = e by omega,← hm'] at h
    exact .inl h
  have hl := reach_symmetric hc.pos hpower
  obtain ⟨-,-,hu⟩ := reach_around .binary32 hc.pos e
  by_cases hfine : 10*ten e d.exponent < 36*quarter e d.exponent
  · exact .inl (margin_of_fine hl (by omega) hd.onGrid hfine)
  · have hbounds := Reach.bounds_of_mem hd.onGrid.mem
    have hlq : r.lower*quarter e d.exponent+2*quarter e d.exponent = 4*m*quarter e d.exponent := by
      rw [← hl,add_mul]
    have huq : r.upper*quarter e d.exponent = 4*m*quarter e d.exponent+2*quarter e d.exponent := by
      rw [hu,add_mul]
    refine position_of_coarse hc.pos
      ⟨hlt,hmin,he,hfull,?_,?_,hd.digits_pos hc.pos,not_lt.1 hfine⟩ hl hu hd.onGrid.mem
    · rw [← hlq]
      exact Nat.add_le_add_right hbounds.1 _
    · rw [← huq]
      exact hbounds.2

end Lindenmayer.Scalar
