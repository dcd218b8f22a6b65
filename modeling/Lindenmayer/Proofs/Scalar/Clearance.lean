import Mathlib.Tactic.Ring
import Mathlib.Tactic.Linarith
import Mathlib.Tactic.LinearCombination
import Mathlib.Algebra.Order.Ring.Abs

/-! How near the multiples of one number come to those of another. The remainders that the Euclidean
algorithm meets are the smallest distances there are; the walk over them decides, for all multiples
up to a bound at once, whether one of them comes nearer than wanted. -/

namespace Lindenmayer.Scalar.Clearance

/-- The distances between multiples of `a` and of `b` come from two remainders, `r` at the `q`-th
multiple of `a` and `r'` at the `q'`-th on the other side. -/
def Spans (a b : ℤ) (q r q' r' : ℕ) : Prop :=
  ∀ k j : ℤ, ∃ s t : ℤ, k = s*q+t*q' ∧ |k*a-j*b| = |t*r'-s*r|

/-- No multiple from the `l`-th to the `n`-th is at a distance below `c`, unless it meets one of `b`
or is the `h`-th. -/
def Clear (a b : ℤ) (l n c h : ℕ) : Prop :=
  ∀ k j : ℤ, 0 < k → l ≤ k → k ≤ n → k*a = j*b ∨ c ≤ |k*a-j*b| ∨ k = h

/-- Walks down the remainders until one multiple at most is left that may be too near: the one told,
or none if that is zero. Nothing if it does not come to that. -/
def walk (l n c : ℕ) : ℕ → ℕ → ℕ → ℕ → ℕ → Option ℕ
  | 0,_,_,_,_ => none
  | fuel+1,q,r,q',r' =>
    if r' = 0 then if c ≤ r then some 0 else none
    else if n/q'*q' < l+q' ∧ n/q'*r'+c ≤ r ∧ 0 < q' then
      some (if c ≤ n/q'*r' then 0 else n/q'*q')
    else walk l n c fuel q' r' (q+r/r'*q') (r%r')

variable {a b : ℤ} {l n c q r q' r' : ℕ}

theorem spans_start (a b : ℕ) : Spans a b 0 b 1 (a%b) := by
  intro k j
  refine ⟨j-k*(a/b),k,by simp,congrArg abs ?_⟩
  have h : (a : ℤ) = b*(a/b : ℕ)+(a%b : ℕ) := by exact_mod_cast (Nat.div_add_mod a b).symm
  push_cast at h ⊢
  linear_combination k*h

theorem Spans.next (h : Spans a b q r q' r') : Spans a b q' r' (q+r/r'*q') (r%r') := by
  intro k j
  obtain ⟨s,t,hk,hd⟩ := h k j
  have hr : (r : ℤ) = r'*(r/r' : ℕ)+(r%r' : ℕ) := by exact_mod_cast (Nat.div_add_mod r r').symm
  refine ⟨t-s*(r/r' : ℕ),s,?_,?_⟩
  · rw [hk]
    push_cast
    ring
  · rw [hd,abs_sub_comm]
    congr 1
    linear_combination s*hr

/-- With coefficients of different signs nothing cancels. -/
theorem le_abs_of_signs (r r' : ℕ) {s t : ℤ} (h : 0 < s ∧ t ≤ 0 ∨ s < 0 ∧ 0 ≤ t) :
    (r : ℤ) ≤ |t*r'-s*r| := by
  have hr : (0 : ℤ) ≤ r := Int.natCast_nonneg r
  have hr' : (0 : ℤ) ≤ r' := Int.natCast_nonneg r'
  rcases h with ⟨hs,ht⟩ | ⟨hs,ht⟩
  · have h₁ : (r : ℤ) ≤ s*r := le_mul_of_one_le_left hr hs
    have h₂ : t*r' ≤ 0 := mul_nonpos_of_nonpos_of_nonneg ht hr'
    exact le_abs.2 (.inr (by linarith))
  · have h₁ : s*r ≤ -1*r := mul_le_mul_of_nonneg_right (by omega) hr
    have h₂ : 0 ≤ t*r' := mul_nonneg ht hr'
    exact le_abs.2 (.inl (by linarith))

theorem le_abs_or_signs (r r' : ℕ) {s t : ℤ} (h : 0 < s*q+t*q') :
    (r : ℤ) ≤ |t*r'-s*r| ∨ 0 ≤ s ∧ 0 < t := by
  have hq : (0 : ℤ) ≤ q := Int.natCast_nonneg q
  have hq' : (0 : ℤ) ≤ q' := Int.natCast_nonneg q'
  rcases Int.lt_or_le 0 t with ht | ht
  · rcases Int.lt_or_le s 0 with hs | hs
    · exact .inl (le_abs_of_signs _ _ (.inr ⟨hs,ht.le⟩))
    · exact .inr ⟨hs,ht⟩
  · have hs : 0 < s := by
      by_contra hs
      have h₁ : s*q ≤ 0 := mul_nonpos_of_nonpos_of_nonneg (by omega) hq
      have h₂ : t*q' ≤ 0 := mul_nonpos_of_nonpos_of_nonneg ht hq'
      omega
    exact .inl (le_abs_of_signs _ _ (.inl ⟨hs,ht⟩))

theorem Spans.clear_of_met (h : Spans a b q r q' 0) (hc : c ≤ r) : Clear a b l n c 0 := by
  intro k j _ _ _
  obtain ⟨s,t,-,hd⟩ := h k j
  rcases eq_or_ne s 0 with rfl | hs
  · rw [zero_mul,Int.natCast_zero,mul_zero,sub_zero,abs_zero,abs_eq_zero,sub_eq_zero] at hd
    exact .inl hd
  · have hle := le_abs_of_signs r 0 (show 0 < s ∧ (0 : ℤ) ≤ 0 ∨ s < 0 ∧ (0 : ℤ) ≤ 0 by omega)
    have hc' : (c : ℤ) ≤ r := by exact_mod_cast hc
    rw [zero_mul] at hle
    rw [hd,Int.natCast_zero,mul_zero]
    exact .inr (.inl (hc'.trans hle))

/-- Below `l` there is room for all multiples of `q'` up to `n` but the last. -/
theorem Spans.clear_of_last (h : Spans a b q r q' r') (hq : 0 < q') (hc : n/q'*r'+c ≤ r)
    (hl : n/q'*q' < l+q') : Clear a b l n c (if c ≤ n/q'*r' then 0 else n/q'*q') := by
  intro k j hk hlk hn
  obtain ⟨s,t,hkst,hd⟩ := h k j
  rw [hd]
  generalize hi : n/q' = i at hc hl ⊢
  have hc' : (i*r'+c : ℤ) ≤ r := by exact_mod_cast hc
  have hl' : (i*q' : ℤ) < l+q' := by exact_mod_cast hl
  have hir : (0 : ℤ) ≤ i*r' := by positivity
  rcases le_abs_or_signs r r' (hkst ▸ hk) with hle | ⟨hs,ht⟩
  · exact .inr (.inl (by omega))
  have hti : t ≤ i := by
    have h₁ : 0 ≤ s*q := mul_nonneg hs (Int.natCast_nonneg q)
    rw [← hi]
    push_cast
    exact (Int.le_ediv_iff_mul_le (by exact_mod_cast hq)).2 (by omega)
  rcases hs.eq_or_lt with rfl | hs
  · rw [zero_mul,zero_add] at hkst
    have hit : t = i := by
      have hlt : i*q' < (t+1)*q' := by linarith
      have := lt_of_mul_lt_mul_right hlt (Int.natCast_nonneg q')
      omega
    right
    rw [hkst,hit,zero_mul,sub_zero,abs_of_nonneg hir]
    split
    · rename_i hfar
      exact .inl (by exact_mod_cast hfar)
    · exact .inr (by push_cast; rfl)
  · have h₂ : (r : ℤ) ≤ s*r := le_mul_of_one_le_left (Int.natCast_nonneg r) hs
    have h₃ : t*r' ≤ i*r' := mul_le_mul_of_nonneg_right hti (Int.natCast_nonneg r')
    exact .inr (.inl (le_abs.2 (.inr (by omega))))

theorem clear_of_walk (h : Spans a b q r q' r') {fuel near : ℕ}
    (hw : walk l n c fuel q r q' r' = some near) : Clear a b l n c near := by
  induction fuel generalizing q r q' r' with
  | zero => cases hw
  | succ fuel ih =>
    unfold walk at hw
    split at hw
    · rename_i hzero
      subst hzero
      split at hw
      · rename_i hc
        cases hw
        exact h.clear_of_met hc
      · cases hw
    · split at hw
      · rename_i hlast
        cases hw
        exact h.clear_of_last hlast.2.2 hlast.2.1 hlast.1
      · exact ih h.next hw

end Lindenmayer.Scalar.Clearance
