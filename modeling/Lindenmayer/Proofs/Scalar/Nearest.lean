import Lindenmayer.Scalar.Rounding
import Mathlib.Tactic.Linarith
import Mathlib.Tactic.FieldSimp
import Mathlib.Algebra.Order.Field.Basic
import Mathlib.Data.Rat.Cast.Order

/-! Rounding a number to a mantissa. The bits that a mantissa keeps of what is cut off decide which
natural number is the nearest one; half-way between two it is the even one. -/

namespace Lindenmayer.Scalar
open Float.Model.UnpackedFloat

/-- What a mantissa and the two bits kept behind it tell of the number that was cut off. -/
def Shows (em : ExtendedMantissa) (x : ℚ) : Prop :=
  match em with
  | ⟨m,false,false⟩ => x = m
  | ⟨m,false,true⟩ => m < x ∧ x < m+1/2
  | ⟨m,true,false⟩ => x = m+1/2
  | ⟨m,true,true⟩ => m+1/2 < x ∧ x < m+1

/-- The natural number nearest to `x`, the even one if there are two. -/
structure Nearest (n : ℕ) (x : ℚ) : Prop where
  below : x ≤ n+1/2
  above : n ≤ x+1/2
  even_of_tie : x = n+1/2 ∨ n = x+1/2 → n % 2 = 0

theorem nearest_natCast (n : ℕ) : Nearest n n where
  below := by linarith
  above := by linarith
  even_of_tie h := by rcases h with h | h <;> linarith

theorem Nearest.unique {m n : ℕ} {x : ℚ} (hm : Nearest m x) (hn : Nearest n x) : m = n := by
  -- If they differ by one, `x` is half-way between them, and only one of them is even.
  have hlt {m n : ℕ} (hm : Nearest m x) (hn : Nearest n x) : ¬ m < n := by
    intro h
    have hle : (m : ℚ)+1 ≤ n := by exact_mod_cast h
    have hx : x = m+1/2 := le_antisymm hm.below (by linarith [hn.above])
    have hs : (n : ℚ) = m+1 := le_antisymm (by linarith [hn.above]) hle
    have hs' : n = m+1 := by exact_mod_cast hs
    have h₁ := hm.even_of_tie (.inl hx)
    have h₂ := hn.even_of_tie (.inr (by linarith))
    omega
  exact le_antisymm (not_lt.1 (hlt hn hm)) (not_lt.1 (hlt hm hn))

theorem mantissa_ofMantissaAndAccuracy (m : ℕ) (acc : Accuracy) :
    (ExtendedMantissa.ofMantissaAndAccuracy m acc).mantissa = m := by
  rcases acc with _ | ⟨_ | _ | _⟩ <;> rfl

namespace Shows

theorem exact (m : ℕ) : Shows (ExtendedMantissa.ofMantissaAndAccuracy m .exact) m := rfl

theorem fraction (n : ℕ) {d : ℕ} (hd : 0 < d) :
    Shows (ExtendedMantissa.ofMantissaAndAccuracy (n/d) (accuracyOfFraction (n%d) d))
      ((n : ℚ)/d) := by
  have hd' : (0 : ℚ) < d := by exact_mod_cast hd
  have hn : (n : ℚ) = d*(n/d : ℕ)+(n%d : ℕ) := by exact_mod_cast (Nat.div_add_mod n d).symm
  have hx : (n : ℚ)/d = (n/d : ℕ)+((n%d : ℕ) : ℚ)/d := by
    rw [div_eq_iff hd'.ne',add_mul,div_mul_cancel₀ _ hd'.ne']
    linarith
  have hlt : ((n%d : ℕ) : ℚ) < d := by exact_mod_cast Nat.mod_lt n hd
  rw [hx]
  generalize n/d = m
  generalize n%d = r at hlt ⊢
  unfold accuracyOfFraction
  split
  · rename_i hr
    simp [ExtendedMantissa.ofMantissaAndAccuracy,Shows,hr]
  · rename_i hr
    have hr' : (0 : ℚ) < r := by exact_mod_cast Nat.pos_of_ne_zero hr
    have hpos : 0 < (r : ℚ)/d := div_pos hr' hd'
    have hone : (r : ℚ)/d < 1 := (div_lt_one hd').2 hlt
    cases hc : compare (2*r) d with
    | lt =>
      have hh : (2*r : ℚ) < d := by exact_mod_cast Nat.compare_eq_lt.1 hc
      have : (r : ℚ)/d < 1/2 := by rw [div_lt_iff₀ hd']; linarith
      exact ⟨by linarith,by linarith⟩
    | eq =>
      have hh : (2*r : ℚ) = d := by exact_mod_cast Nat.compare_eq_eq.1 hc
      have : (r : ℚ)/d = 1/2 := by rw [div_eq_iff hd'.ne']; linarith
      show _ = _
      linarith
    | gt =>
      have hh : (d : ℚ) < 2*r := by exact_mod_cast Nat.compare_eq_gt.1 hc
      have : 1/2 < (r : ℚ)/d := by rw [lt_div_iff₀ hd']; linarith
      exact ⟨by linarith,by linarith⟩

variable {em : ExtendedMantissa} {x : ℚ}

theorem mantissa_le (h : Shows em x) : em.mantissa ≤ x := by
  obtain ⟨m,r,s⟩ := em
  cases r <;> cases s <;> simp only [Shows] at h ⊢ <;> linarith

theorem lt_mantissa_succ (h : Shows em x) : x < em.mantissa+1 := by
  obtain ⟨m,r,s⟩ := em
  cases r <;> cases s <;> simp only [Shows] at h ⊢ <;> linarith

theorem nearest (h : Shows em x) : Nearest em.roundedMantissa x := by
  obtain ⟨m,r,s⟩ := em
  cases r <;> cases s <;>
    simp only [Shows,ExtendedMantissa.roundedMantissa,ExtendedMantissa.accuracy,
      Accuracy.roundToNearestEven] at h ⊢
  · rw [h]
    exact nearest_natCast m
  · exact ⟨by linarith,by linarith,fun ht => by rcases ht with ht | ht <;> linarith⟩
  · rcases Nat.mod_two_eq_zero_or_one m with hm | hm
    · rw [hm,Nat.add_zero]
      exact ⟨by linarith,by linarith,fun _ => hm⟩
    · rw [hm]
      exact ⟨by push_cast; linarith,by push_cast; linarith,fun _ => by omega⟩
  · exact ⟨by push_cast; linarith,by push_cast; linarith,
      fun ht => by push_cast at ht; rcases ht with ht | ht <;> linarith⟩

theorem halve (h : Shows em x) : Shows em.shiftRightOne (x/2) := by
  obtain ⟨m,r,s⟩ := em
  obtain ⟨n,hn | hn⟩ : ∃ n, m = 2*n ∨ m = 2*n+1 := ⟨m/2,by omega⟩
  · have hhalf : 2*n/2 = n := by omega
    subst hn
    cases r <;> cases s <;>
      simp [Shows,ExtendedMantissa.shiftRightOne] at h ⊢ <;>
      (try constructor) <;> linarith
  · have hhalf : (2*n+1)/2 = n := by omega
    have hodd : (2*n+1) % 2 = 1 := by omega
    subst hn
    cases r <;> cases s <;>
      simp [Shows,ExtendedMantissa.shiftRightOne,hhalf,hodd] at h ⊢ <;>
      (try constructor) <;> linarith

theorem shift (h : Shows em x) (n : ℕ) : Shows (em >>> n) (x/2^n) := by
  show Shows (n.repeat ExtendedMantissa.shiftRightOne em) _
  induction n with
  | zero => simpa [Nat.repeat] using h
  | succ n ih =>
    rw [pow_succ,← div_div]
    exact ih.halve

end Shows
end Lindenmayer.Scalar
