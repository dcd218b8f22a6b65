import Lindenmayer.Proofs.Scalar.Clearance
import Lindenmayer.Proofs.Scalar.Shortest

/-! The gap between short decimals and the bounds within which numbers round to a single. A decimal
on a grid that is not much finer than the singles are apart either is such a bound or keeps clear of
it by more than two roundings in double precision can move it. There are two decimals that do
not. -/

namespace Lindenmayer.Scalar
open Float.Model Float.Model.UnpackedFloat Shortest Clearance

/-- The exponents and the digits of the decimals that come nearer to a bound. -/
def nearMisses : List (ℤ × ℤ × ℕ) := [(-133,-40,8278143),(-107,-32,7038531)]

/-- The first grid that may be coarse for numbers with the exponent `e`. -/
def firstGrid (e : ℤ) : ℤ := e*1233/4096

/-- On a coarse grid the multiples in reach keep clear of the odd multiples of half a unit. -/
def keepsClear (e p : ℤ) : Bool :=
  let q := quarter e p
  let t := ten e p
  let first := if e = -149 then 1 else (2^25-2)*q/t
  if 36*q ≤ 10*t ∧ 1*t ≤ 2^26*q then
    match walk first (2^26*q/t) (2*q/2^26+1) 200 0 (2*q) 1 (t%(2*q)) with
    | some h => h = 0 ∨ (2*h*t+2*q)/(4*q)%2 = 0 ∨ (e,p,h) ∈ nearMisses
    | none => false
  else true

theorem keepsClear_grids :
    ∀ i < 254, ∀ j < 9, keepsClear ((i : ℕ)-149) (firstGrid ((i : ℕ)-149)+(j : ℕ)) = true := by
  decide +kernel

theorem grids_suffice : ∀ i < 254,
    10*ten ((i : ℕ)-149) (firstGrid ((i : ℕ)-149)-1) <
      36*quarter ((i : ℕ)-149) (firstGrid ((i : ℕ)-149)-1) ∧
    2^26*quarter ((i : ℕ)-149) (firstGrid ((i : ℕ)-149)+9) <
      1*ten ((i : ℕ)-149) (firstGrid ((i : ℕ)-149)+9) := by
  decide +kernel

variable {m k : ℕ} {e p : ℤ}

theorem zpow_ten_le {a b : ℤ} (h : a ≤ b) : (10 : ℚ)^a ≤ 10^b :=
  zpow_le_zpow_right₀ (by norm_num) h

theorem keepsClear_of_grid (h₁ : -149 ≤ e) (h₂ : e ≤ 104) (hfine : 36*quarter e p ≤ 10*ten e p)
    (hcoarse : 1*ten e p ≤ 2^26*quarter e p) : keepsClear e p = true := by
  obtain ⟨i,hi,rfl⟩ : ∃ i < 254, e = (i : ℕ)-149 := ⟨(e+149).toNat,by omega,by omega⟩
  obtain ⟨hlow,hhigh⟩ := grids_suffice i hi
  rw [← not_le,quarter_le_ten] at hlow
  rw [← not_le,ten_le_quarter] at hhigh
  rw [quarter_le_ten] at hfine
  rw [ten_le_quarter] at hcoarse
  have hp₁ : firstGrid ((i : ℕ)-149) ≤ p := by
    by_contra hlt
    have := zpow_ten_le (show p ≤ firstGrid ((i : ℕ)-149)-1 by omega)
    refine hlow (hfine.trans ?_)
    gcongr
  have hp₂ : p < firstGrid ((i : ℕ)-149)+9 := by
    by_contra hlt
    have := zpow_ten_le (show firstGrid ((i : ℕ)-149)+9 ≤ p by omega)
    refine hhigh (le_trans ?_ hcoarse)
    gcongr
  have h := keepsClear_grids i hi (p-firstGrid ((i : ℕ)-149)).toNat (by omega)
  rwa [show firstGrid ((i : ℕ)-149)+((p-firstGrid ((i : ℕ)-149)).toNat : ℤ) = p by omega] at h

/-- The multiples that the walk went over include the one in reach. -/
theorem clear_of_keepsClear (h : keepsClear e p = true) (hfine : 36*quarter e p ≤ 10*ten e p)
    (hcoarse : 1*ten e p ≤ 2^26*quarter e p) :
    ∃ near, Clear (ten e p) (2*quarter e p : ℕ)
      (if e = -149 then 1 else (2^25-2)*quarter e p/ten e p) (2^26*quarter e p/ten e p)
      (2*quarter e p/2^26+1) near ∧
      (near = 0 ∨ (2*near*ten e p+2*quarter e p)/(4*quarter e p)%2 = 0 ∨
        (e,p,near) ∈ nearMisses) := by
  unfold keepsClear at h
  rw [if_pos ⟨hfine,hcoarse⟩] at h
  split at h
  · rename_i near hwalk
    exact ⟨near,clear_of_walk (spans_start _ _) hwalk,of_decide_eq_true h⟩
  · cases h

/-- A decimal in reach of a single, on a grid that is coarse enough for few to be in reach. -/
structure Coarse (m : ℕ) (e p : ℤ) (k : ℕ) : Prop where
  lt : m < 2^24
  min_le : -149 ≤ e
  le_max : e ≤ 104
  full : -149 < e → 2^23 ≤ m
  low : 4*m*quarter e p ≤ k*ten e p+2*quarter e p
  high : k*ten e p ≤ 4*m*quarter e p+2*quarter e p
  pos : 0 < k
  coarse : 36*quarter e p ≤ 10*ten e p

/-- Whether it is one of the bounds, the odd multiples of half a unit, or else how far away. -/
theorem Coarse.gap (h : Coarse m e p k) {j : ℕ} (hj : j%2 = 1) :
    k*ten e p = j*(2*quarter e p) ∨
      (quarter e p : ℤ) < 2^25*|(k*ten e p : ℤ)-j*(2*quarter e p)| ∨ (e,p,k) ∈ nearMisses := by
  have hq := quarter_pos e p
  have ht := ten_pos e p
  have hupper : k*ten e p ≤ 2^26*quarter e p := by
    have := Nat.mul_le_mul_right (quarter e p) (show 4*m+2 ≤ 2^26 by have := h.lt; omega)
    rw [add_mul] at this
    exact h.high.trans this
  have hcoarse : 1*ten e p ≤ 2^26*quarter e p :=
    (Nat.mul_le_mul_right _ h.pos).trans hupper
  obtain ⟨near,hclear,hnear⟩ := clear_of_keepsClear
    (keepsClear_of_grid h.min_le h.le_max h.coarse hcoarse) h.coarse hcoarse
  have hfirst : (if e = -149 then 1 else (2^25-2)*quarter e p/ten e p) ≤ k := by
    split
    · exact h.pos
    · refine Nat.div_le_of_le_mul ?_
      have hm := h.full (by have := h.min_le; omega)
      have := Nat.mul_le_mul_right (quarter e p) (show 2^25 ≤ 4*m by omega)
      have := h.low
      rw [Nat.sub_mul,mul_comm (ten e p)]
      omega
  have hlast : k ≤ 2^26*quarter e p/ten e p := (Nat.le_div_iff_mul_le ht).2 hupper
  by_contra hnot
  rw [not_or,not_or,not_lt] at hnot
  obtain ⟨hne,hsmall,hmiss⟩ := hnot
  generalize ten e p = t at *
  generalize quarter e p = q at *
  have hd := hclear k j (by exact_mod_cast h.pos) (by exact_mod_cast hfirst)
    (by exact_mod_cast hlast)
  push_cast at hd
  rcases hd with hd | hd | hd
  · exact hne (by exact_mod_cast hd)
  · have : (2*q : ℤ) < 2^26*(2*q/2^26+1) := by omega
    omega
  · obtain rfl : k = near := by exact_mod_cast hd
    rcases hnear with rfl | heven | hnear
    · exact absurd h.pos (lt_irrefl 0)
    · -- The only odd multiple near by would be an even one.
      have hlt : |(k*t : ℤ)-j*(2*q)| < q := by
        have := abs_nonneg ((k*t : ℤ)-j*(2*q))
        omega
      obtain ⟨hlow,hhigh⟩ := abs_lt.1 hlt
      have hlow' : j*(2*q) < k*t+q := by zify; linarith
      have hhigh' : k*t < j*(2*q)+q := by zify; linarith
      have hdiv : (2*k*t+2*q)/(4*q) = j := Nat.div_eq_of_lt_le (by linarith) (by linarith)
      omega
    · exact hmiss hnear

end Lindenmayer.Scalar
