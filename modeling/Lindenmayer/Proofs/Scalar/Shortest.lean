import Lindenmayer.Proofs.Scalar.Reach

/-! The search for a shortest decimal. What it finds is within the bounds, is on the first grid that
is fine enough, and is the nearest on that grid where the bounds are as far on both sides. -/

namespace Lindenmayer.Scalar.Shortest
open Float.Model Float.Model.UnpackedFloat

variable {spec : Format} {m : ℕ} {e p : ℤ}

/-! ### Units -/

theorem pow_toNat (b : ℕ) (hb : 0 < b) (k : ℤ) : (b : ℚ)^k.toNat = b^k*b^(-k).toNat := by
  have hb' : (b : ℚ) ≠ 0 := by exact_mod_cast hb.ne'
  rw [← zpow_natCast,← zpow_natCast,← zpow_add₀ hb']
  congr 1
  omega

theorem quarter_pos (e p : ℤ) : 0 < quarter e p := by
  unfold quarter
  simp only [Nat.pow_eq]
  positivity

theorem ten_pos (e p : ℤ) : 0 < ten e p := by
  unfold ten
  simp only [Nat.pow_eq]
  positivity

theorem ten_mul (e p : ℤ) : (ten e p : ℚ)*2^e = 4*10^p*quarter e p := by
  have h₂ : (2 : ℚ)^(2-e).toNat*2^e = 4*2^(e-2).toNat := by
    have h := pow_toNat 2 two_pos (2-e)
    rw [neg_sub] at h
    have hfour : (2 : ℚ)^(2-e)*2^e = 4 := by
      rw [← zpow_add₀ two_ne_zero,sub_add_cancel]
      norm_num
    push_cast at h
    rw [h,mul_right_comm,hfour]
  have h₁₀ := pow_toNat 10 (by omega) p
  push_cast at h₁₀
  unfold ten quarter
  simp only [Nat.pow_eq]
  push_cast
  rw [mul_right_comm,h₂,h₁₀]
  ring

/-- A multiple of `10 ^ p`, counted in units of `2 ^ e`. -/
theorem digits_units (k : ℕ) : (k*ten e p : ℚ)/(4*quarter e p)*2^e = k*10^p := by
  have hq : (0 : ℚ) < quarter e p := by exact_mod_cast quarter_pos e p
  rw [div_mul_eq_mul_div,mul_assoc,ten_mul]
  field_simp

theorem quarter_le_ten (a b : ℕ) :
    a*quarter e p ≤ b*ten e p ↔ (a : ℚ)*2^e ≤ b*(4*10^p) := by
  have hq : (0 : ℚ) < quarter e p := by exact_mod_cast quarter_pos e p
  have hcast : a*quarter e p ≤ b*ten e p ↔ (a*quarter e p : ℚ) ≤ b*ten e p := by norm_cast
  rw [hcast,← mul_le_mul_iff_left₀ (show (0 : ℚ) < 2^e by positivity),mul_assoc (b : ℚ),ten_mul,
    mul_right_comm,← mul_assoc,mul_le_mul_iff_left₀ hq]

theorem ten_le_quarter (a b : ℕ) :
    b*ten e p ≤ a*quarter e p ↔ b*(4*10^p) ≤ (a : ℚ)*2^e := by
  have hq : (0 : ℚ) < quarter e p := by exact_mod_cast quarter_pos e p
  have hcast : b*ten e p ≤ a*quarter e p ↔ (b*ten e p : ℚ) ≤ a*quarter e p := by norm_cast
  rw [hcast,← mul_le_mul_iff_left₀ (show (0 : ℚ) < 2^e by positivity),mul_assoc (b : ℚ),ten_mul,
    mul_right_comm (a : ℚ),← mul_assoc,mul_le_mul_iff_left₀ hq]

/-! ### One grid -/

section
variable {r : Reach} {q t k : ℕ}

theorem Reach.bounds_of_mem (h : r.mem q t k = true) : r.lower*q ≤ k*t ∧ k*t ≤ r.upper*q := by
  unfold mem at h
  split at h
  · exact of_decide_eq_true h
  · have := of_decide_eq_true h
    exact ⟨this.1.le,this.2.le⟩

theorem Reach.mem_of_lt (h₁ : r.lower*q < k*t) (h₂ : k*t < r.upper*q) : r.mem q t k = true := by
  unfold mem
  split <;> simp [h₁,h₂,h₁.le,h₂.le]

theorem Reach.le_lower (h : r.mem q t k = false) (hk : k*t < r.upper*q) : k*t ≤ r.lower*q := by
  by_contra hlt
  rw [mem_of_lt (not_le.1 hlt) hk] at h
  cases h

theorem Reach.upper_le (h : r.mem q t k = false) (hk : r.lower*q < k*t) : r.upper*q ≤ k*t := by
  by_contra hlt
  rw [mem_of_lt hk (not_le.1 hlt)] at h
  cases h

end

theorem reach_around (spec : Format) (hm : 0 < m) (e : ℤ) :
    (reach spec m e).lower+1 ≤ 4*m ∧ 4*m ≤ (reach spec m e).lower+2 ∧
      (reach spec m e).upper = 4*m+2 := by
  unfold reach
  dsimp only
  split <;> omega

theorem reach_symmetric (hm : 0 < m)
    (h : ¬ (m = 2^(spec.mantissaBits-1) ∧ spec.minExponent < e)) :
    (reach spec m e).lower+2 = 4*m := by
  unfold reach
  simp only [Nat.pow_eq,if_neg h]
  omega

/-- The multiple that a grid has for `x` quarters: within the bounds, and if these are as far on
both sides the nearest to `x`. -/
structure OnGrid (r : Reach) (q t x k : ℕ) : Prop where
  mem : r.mem q t k = true
  near : r.lower+2 = x → 2*(x*q) ≤ 2*(k*t)+t ∧ 2*(k*t) ≤ 2*(x*q)+t

/-- If neither neighbour of the number is within the bounds, the grid is too coarse for them. -/
theorem onGrid_spec (spec : Format) (hm : 0 < m) (e p : ℤ) :
    match onGrid spec m e p with
    | some k => OnGrid (reach spec m e) (quarter e p) (ten e p) (4*m) k
    | none => 3*quarter e p ≤ ten e p := by
  obtain ⟨hl,hl',hu⟩ := reach_around spec hm e
  have hq := quarter_pos e p
  have hlow : 4*m*quarter e p/ten e p*ten e p ≤ 4*m*quarter e p := Nat.div_mul_le_self _ _
  have hhigh : 4*m*quarter e p < (4*m*quarter e p/ten e p+1)*ten e p :=
    (Nat.lt_mul_div_succ _ (ten_pos e p)).trans_eq (mul_comm _ _)
  unfold onGrid
  dsimp only
  generalize 4*m*quarter e p/ten e p = k at *
  generalize reach spec m e = r at *
  generalize quarter e p = q at *
  generalize ten e p = t at *
  -- What is known of the bounds, of the number and of its neighbours, as sums of named products.
  have hL := Nat.mul_le_mul_right q hl
  have hL' := Nat.mul_le_mul_right q hl'
  have hU : r.upper*q = 4*m*q+2*q := by rw [hu,add_mul]
  have hsym (h : r.lower+2 = 4*m) : r.lower*q+2*q = 4*m*q := by rw [← h,add_mul]
  have hin {k : ℕ} (h : r.mem q t k = true) := Reach.bounds_of_mem h
  have hbelow (h : r.mem q t k = false) : k*t ≤ r.lower*q := Reach.le_lower h (by omega)
  rw [add_mul,one_mul] at hL hhigh
  rw [add_mul] at hL'
  have habove (h : r.mem q t (k+1) = false) : r.upper*q ≤ k*t+t :=
    (Reach.upper_le h (by rw [add_mul]; omega)).trans_eq (by rw [add_mul,one_mul])
  have hnext : (k+1)*t = k*t+t := by rw [add_mul,one_mul]
  cases h₀ : r.mem q t k <;> cases h₁ : r.mem q t (k+1) <;> dsimp only
  · have := hbelow h₀
    have := habove h₁
    omega
  · have := hbelow h₀
    have := hin h₁
    exact ⟨h₁,fun h => by have := hsym h; omega⟩
  · have := habove h₁
    have := hin h₀
    exact ⟨h₀,fun h => by have := hsym h; omega⟩
  · rw [hnext]
    cases hc : compare (4*m*q-k*t) (k*t+t-4*m*q) with
    | lt =>
      rw [Nat.compare_eq_lt] at hc
      exact ⟨h₀,fun _ => by omega⟩
    | eq =>
      rw [Nat.compare_eq_eq] at hc
      dsimp only
      split
      · exact ⟨h₀,fun _ => by omega⟩
      · exact ⟨h₁,fun _ => by omega⟩
    | gt =>
      rw [Nat.compare_eq_gt] at hc
      exact ⟨h₁,fun _ => by omega⟩

/-! ### All grids -/

/-- What the search is sure of: the grid is not much finer than the bounds are apart. -/
structure Found (spec : Format) (m : ℕ) (e : ℤ) (d : Decimal) : Prop where
  onGrid : OnGrid (reach spec m e) (quarter e d.exponent) (ten e d.exponent) (4*m) d.digits
  fine : 3*(2 : ℚ)^e ≤ 4*10^(d.exponent+1)

theorem ten_dvd (m : ℕ) (e : ℤ) : ten e (min e 0) ∣ 4*m*quarter e (min e 0) := by
  unfold ten quarter
  simp only [Nat.pow_eq]
  rcases Int.le_total e 0 with he | he
  · have hten : 10^(-e).toNat = 2^(-e).toNat*5^(-e).toNat := Nat.mul_pow 2 5 _
    rw [min_eq_left he,show (e-2).toNat = 0 by omega,show e.toNat = 0 by omega,
      show (2-e).toNat = 2+(-e).toNat by omega,hten,pow_add]
    exact ⟨m*5^(-e).toNat,by ring⟩
  · rw [min_eq_right he]
    obtain ⟨j,hj⟩ : 2^(2-e).toNat ∣ 4 := by
      have h := pow_dvd_pow 2 (show (2-e).toNat ≤ 2 by omega)
      exact h
    simp only [neg_zero,Int.toNat_zero,pow_zero,mul_one]
    exact ⟨j*m*2^(e-2).toNat,by rw [hj]; ring⟩

theorem found_search (hm : 0 < m) : ∀ (n : ℕ) (p : ℤ), p-n = min e 0 →
    3*(2 : ℚ)^e ≤ 4*10^(p+1) → Found spec m e (search spec m e n p)
  | 0,p,hlast,hfine => by
    obtain rfl : p = min e 0 := by omega
    obtain ⟨hl,hl',hu⟩ := reach_around spec hm e
    have hq := quarter_pos e (min e 0)
    have hexact := Nat.div_mul_cancel (ten_dvd m e)
    have hgrid : OnGrid (reach spec m e) (quarter e (min e 0)) (ten e (min e 0)) (4*m)
        (4*m*quarter e (min e 0)/ten e (min e 0)) := by
      refine ⟨Reach.mem_of_lt ?_ ?_,fun _ => ?_⟩ <;> rw [hexact]
      · exact Nat.mul_lt_mul_of_pos_right (by omega) hq
      · exact Nat.mul_lt_mul_of_pos_right (by omega) hq
      · omega
    exact ⟨hgrid,hfine⟩
  | n+1,p,hlast,hfine => by
    have hgrid := onGrid_spec spec hm e p
    unfold search
    split
    · rename_i k hk
      rw [hk] at hgrid
      exact ⟨hgrid,hfine⟩
    · rename_i hnone
      rw [hnone] at hgrid
      refine found_search hm n (p-1) (by omega) ?_
      rw [sub_add_cancel]
      have h := (quarter_le_ten 3 1).1 (hgrid.trans_eq (one_mul _).symm)
      rwa [Nat.cast_one,one_mul] at h

theorem Found.digits_pos {d : Decimal} (hm : 0 < m) (h : Found spec m e d) : 0 < d.digits := by
  obtain ⟨-,hl,-⟩ := reach_around spec hm e
  have hq := quarter_pos e d.exponent
  have hle := (Reach.bounds_of_mem h.onGrid.mem).1
  by_contra hzero
  rw [Nat.eq_zero_of_not_pos hzero,zero_mul] at hle
  have : 0 < (reach spec m e).lower*quarter e d.exponent := Nat.mul_pos (by omega) hq
  omega

theorem found_shortest (hm : 0 < m) : Found spec m e (shortest spec m e) := by
  refine found_search hm _ _ (by omega) ?_
  generalize hj : (totalExponent m e).toNat/3 = j
  have he : (2 : ℚ)^e ≤ 10^(j+1) :=
    calc (2 : ℚ)^e ≤ 2^((3*(j+1) : ℕ) : ℤ) :=
          zpow_le_zpow_right₀ one_le_two (by unfold totalExponent at hj; omega)
      _ = (2^3)^(j+1) := by rw [zpow_natCast,pow_mul]
      _ ≤ 10^(j+1) := pow_le_pow_left₀ (by norm_num) (by norm_num) _
  have htop : ((totalExponent m e).toNat : ℤ)/3+1 = ((j+1 : ℕ) : ℤ) := by omega
  rw [htop,zpow_add_one₀ (by norm_num),zpow_natCast]
  have : (0 : ℚ) < 10^(j+1) := by positivity
  linarith

end Lindenmayer.Scalar.Shortest
