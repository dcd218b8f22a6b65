import Lindenmayer.Proofs.Scalar.Single

/-! Singles read back. Whatever a reader makes of the shortest decimal of a single in double
precision, narrowing it gives the single again. If the decimal stays clear of the bounds, so does
what is read; one that is a bound itself is short enough to be read exactly. -/

namespace Lindenmayer.Scalar
open Float.Model Float.Model.UnpackedFloat Shortest Json

variable {m : ℕ} {e p : ℤ}

/-! ### Reading near a bound and on it -/

theorem contains_of_margin {r : Reach} {q t k : ℕ} {y : ℚ} (hq : 0 < q) (h : Margin r q t k)
    (hk : k*t ≤ 2^26*q) (hy : |y-k*t/(4*q)| ≤ k*t/(4*q)/2^51) : r.Contains y := by
  have hq' : (0 : ℚ) < q := by exact_mod_cast hq
  obtain ⟨h₁,h₂⟩ := h
  have h₁' : (r.lower*q*2^25+q : ℚ) < k*t*2^25 := by exact_mod_cast h₁
  have h₂' : (k*t*2^25+q : ℚ) < r.upper*q*2^25 := by exact_mod_cast h₂
  have hk' : (k*t : ℚ) ≤ 2^26*q := by exact_mod_cast hk
  have hx : (k*t : ℚ) = 4*(k*t/(4*q))*q := by field_simp
  generalize (k*t : ℚ)/(4*q) = x at hx hy
  rw [hx] at h₁' h₂' hk'
  have hx₂₄ : 4*x ≤ 2^26 := le_of_mul_le_mul_right hk' hq'
  have hlow : r.lower*2^25+1 < 4*x*2^25 := by
    refine lt_of_mul_lt_mul_right (a := (q : ℚ)) ?_ hq'.le
    linarith
  have hhigh : 4*x*2^25+1 < r.upper*2^25 := by
    refine lt_of_mul_lt_mul_right (a := (q : ℚ)) ?_ hq'.le
    linarith
  obtain ⟨hy₁,hy₂⟩ := abs_le.1 hy
  exact Reach.contains_of_lt (by linarith) (by linarith)

theorem lt_of_five_pow_dvd {n c b : ℕ} (hb : 0 < b) (hb₅ : b < 5^23) (h : 5^n ∣ b*2^c) :
    n ≤ 22 := by
  have hdvd : 5^n ∣ b := (Nat.Coprime.pow n c (by decide : Nat.Coprime 5 2)).dvd_of_dvd_mul_right h
  have hlt : 5^n < 5^23 := (Nat.le_of_dvd hb hdvd).trans_lt hb₅
  exact Nat.lt_succ_iff.1 ((Nat.pow_lt_pow_iff_right (by decide)).1 hlt)

/-- A decimal that is a bound has a small exponent, for a power of five divides its digits or those
of the bound. -/
theorem exponent_of_meets {k b : ℕ} (hk : 0 < k) (hb : 0 < b) (h : k*ten e p = b*quarter e p)
    (hk₅ : k < 5^23) (hb₅ : b < 5^23) : p.natAbs ≤ 22 := by
  have hten (n : ℕ) : 5^n ∣ 10^n := pow_dvd_pow_of_dvd (by decide) n
  unfold ten quarter at h
  simp only [Nat.pow_eq] at h
  rcases Int.le_total 0 p with hp | hp
  · rw [show (-p).toNat = 0 by omega,pow_zero,mul_one] at h
    have h₅ : 5^p.toNat ∣ b*2^(e-2).toNat := by
      rw [← h]
      exact ((hten _).mul_left _).mul_left _
    have := lt_of_five_pow_dvd hb hb₅ h₅
    omega
  · rw [show p.toNat = 0 by omega,pow_zero,mul_one] at h
    have h₅ : 5^(-p).toNat ∣ k*2^(2-e).toNat := by
      rw [h]
      exact ((hten _).mul_left _).mul_left _
    have := lt_of_five_pow_dvd hk hk₅ h₅
    omega

/-! ### Bounds -/

theorem shortest_bounds (hc : Canonical .binary32 m e) (he : e ≤ 104) {d : Decimal}
    (hd : Found .binary32 m e d) :
    d.digits*ten e d.exponent ≤ 2^26*quarter e d.exponent ∧ d.digits < 10^9 ∧
      d.exponent.natAbs < 60 := by
  obtain ⟨hlt,hmin,-⟩ := canonical_single hc
  obtain ⟨-,-,hu⟩ := reach_around .binary32 hc.pos e
  have hq := quarter_pos e d.exponent
  have hupper : d.digits*ten e d.exponent ≤ 2^26*quarter e d.exponent :=
    (Reach.bounds_of_mem hd.onGrid.mem).2.trans (Nat.mul_le_mul_right _ (by omega))
  have hfine : 3*quarter e d.exponent ≤ 10*ten e d.exponent := by
    rw [quarter_le_ten]
    have := hd.fine
    rw [zpow_add_one₀ (by norm_num)] at this
    push_cast
    linarith
  refine ⟨hupper,?_,?_⟩
  · have h₁ := Nat.mul_le_mul_left d.digits hfine
    have h₂ : d.digits*3*quarter e d.exponent ≤ 10*2^26*quarter e d.exponent := by
      linarith
    have := Nat.le_of_mul_le_mul_right h₂ hq
    omega
  · have hlow : 1*ten e d.exponent ≤ 2^26*quarter e d.exponent :=
      (Nat.mul_le_mul_right _ (hd.digits_pos hc.pos)).trans hupper
    rw [ten_le_quarter] at hlow
    have h₁ : (2 : ℚ)^e ≤ 2^(104 : ℤ) := zpow_le_zpow_right₀ one_le_two he
    have h₂ : (2 : ℚ)^(-149 : ℤ) ≤ 2^e := zpow_le_zpow_right₀ one_le_two hmin
    by_contra hfar
    rcases Int.le_total 0 d.exponent with hp | hp
    · have := zpow_ten_le (show 60 ≤ d.exponent by omega)
      have : (2 : ℚ)^26*2^(104 : ℤ) < 10^(60 : ℤ) := by norm_num
      push_cast at hlow
      linarith
    · have := zpow_ten_le (show d.exponent+1 ≤ -59 by omega)
      have : 4*(10 : ℚ)^(-59 : ℤ) < 3*2^(-149 : ℤ) := by norm_num
      linarith [hd.fine]

/-! ### Reading -/

/-- An integer and a power of ten that a reader may take for a decimal: its digits and its exponent,
or all its digits before the point and one place after it. -/
structure ReadAs (d : Decimal) (n : ℕ) (k : ℤ) : Prop where
  lt : n < 2^53
  value : (n : ℚ)*10^k = d.digits*10^d.exponent
  place : k = d.exponent ∨ k = -1 ∧ 0 ≤ d.exponent

/-- What is read is within the bounds of `m · 2 ^ e`. -/
def ReadInReach (m : ℕ) (e : ℤ) (n : ℕ) (k : ℤ) : Prop :=
  ∃ y w, scale? (.ofNat n) k = some y ∧ Holds y w ∧ (reach .binary32 m e).Contains (w/2^e)

theorem holds_finite {M : ℕ} {E : ℤ} (hM : 2^52 ≤ M) (hM' : M < 2^53) (hE : -1074 ≤ E)
    (hE' : E ≤ 971) :
    Holds (.ofModel (.pack (.finite .positive M E (by omega)))) (M*2^E) := by
  have hc : Canonical .binary64 M E := ⟨by omega,hE,hM',fun _ => hM⟩
  exact ⟨M,E,hc.pos,unpack_pack hc hE' hM,hc,hM,rfl⟩

theorem readInReach_of_quotient {n j M : ℕ} {E : ℤ} (hj : 0 < j ∧ j ≤ 308)
    (hM : 2^52 ≤ M ∧ M < 2^53) (hE : -1074 ≤ E ∧ E ≤ 971)
    (h : Float.ofNat n/powerOfTen j = .ofModel (.pack (.finite .positive M E (by omega))))
    (hin : (reach .binary32 m e).Contains (M*2^E/2^e)) : ReadInReach m e n (-j) :=
  ⟨_,_,by rw [scale?_neg _ hj.1 hj.2,h],holds_finite hM.1 hM.2 hE.1 hE.2,hin⟩

/-- The decimals that come near to a bound: the division does not take them across it. -/
theorem readInReach_of_nearMiss {d : Decimal} (hm : 0 < m) (hd : Found .binary32 m e d)
    (hmiss : (e,d.exponent,d.digits) ∈ nearMisses) :
    ReadInReach m e d.digits d.exponent := by
  obtain ⟨k,p⟩ := d
  obtain ⟨-,hl,hu⟩ := reach_around .binary32 hm e
  have hbounds := Reach.bounds_of_mem hd.onGrid.mem
  simp only [nearMisses,List.mem_cons,Prod.mk.injEq,List.not_mem_nil,or_false] at hmiss
  rcases hmiss with ⟨rfl,rfl,rfl⟩ | ⟨rfl,rfl,rfl⟩
  · have hq : quarter (-133) (-40) = 10^40 := by decide +kernel
    have ht : ten (-133) (-40) = 2^135 := by decide +kernel
    simp only [hq,ht] at hbounds
    obtain rfl : m = 9014099 := by omega
    have hr : reach .binary32 9014099 (-133) = ⟨4*9014099-2,4*9014099+2,false⟩ := by
      decide +kernel
    have h : Float.ofNat 8278143/powerOfTen 40 =
        .ofModel (.pack (.finite .positive 4839407819423741 (-162) (by decide))) := by
      decide +kernel
    refine readInReach_of_quotient (by decide) (by decide) (by decide) h ?_
    rw [hr]
    exact Reach.contains_of_lt (by norm_num) (by norm_num)
  · have hq : quarter (-107) (-32) = 10^32 := by decide +kernel
    have ht : ten (-107) (-32) = 2^109 := by decide +kernel
    simp only [hq,ht] at hbounds
    obtain rfl : m = 11420669 := by omega
    have hr : reach .binary32 11420669 (-107) = ⟨4*11420669-2,4*11420669+2,false⟩ := by
      decide +kernel
    have h : Float.ofNat 7038531/powerOfTen 32 =
        .ofModel (.pack (.finite .positive 6131425250115583 (-136) (by decide))) := by
      decide +kernel
    refine readInReach_of_quotient (by decide) (by decide) (by decide) h ?_
    rw [hr]
    exact Reach.contains_of_lt (by norm_num) (by norm_num)

theorem short_of_meets {k b : ℕ} (hb : b < 2^53) (h : k*ten e p = b*quarter e p) :
    Short .binary64 (k*10^p) := by
  refine ⟨b,e-2,hb,?_⟩
  have hq : (0 : ℚ) < quarter e p := by exact_mod_cast quarter_pos e p
  have h' : (k*ten e p : ℚ) = b*quarter e p := by exact_mod_cast h
  rw [← digits_units (e := e),h',zpow_sub₀ two_ne_zero]
  field_simp
  norm_num

theorem exponent_neg_of_nearMiss {k : ℕ} (h : (e,p,k) ∈ nearMisses) : p < 0 := by
  simp only [nearMisses,List.mem_cons,Prod.mk.injEq,List.not_mem_nil,or_false] at h
  omega

theorem Read.contains_of_margin {d : Decimal} {n : ℕ} {k : ℤ} {w : ℚ}
    (hc : Canonical .binary32 m e) (he : e ≤ 104) (hd : Found .binary32 m e d)
    (hvalue : (n : ℚ)*10^k = d.digits*10^d.exponent)
    (h : Margin (reach .binary32 m e) (quarter e d.exponent) (ten e d.exponent) d.digits)
    (hread : Read n k w) : (reach .binary32 m e).Contains (w/2^e) := by
  obtain ⟨hupper,-,-⟩ := shortest_bounds hc he hd
  have hpow : (0 : ℚ) < 2^e := by positivity
  refine Scalar.contains_of_margin (quarter_pos _ _) h hupper ?_
  have herror := hread.error
  rw [hvalue,← digits_units (e := e)] at herror
  generalize (d.digits*ten e d.exponent : ℚ)/(4*quarter e d.exponent) = x at herror
  rw [← mul_le_mul_iff_left₀ hpow,← abs_of_pos hpow,← abs_mul,abs_of_pos hpow,sub_mul,
    div_mul_cancel₀ _ hpow.ne',div_mul_eq_mul_div]
  exact herror

theorem Read.contains_of_meets {d : Decimal} {n : ℕ} {k : ℤ} {w : ℚ}
    (hc : Canonical .binary32 m e) (he : e ≤ 104) (hd : Found .binary32 m e d)
    (hn : ReadAs d n k)
    (h : Meets (reach .binary32 m e) (quarter e d.exponent) (ten e d.exponent) d.digits)
    (hread : Read n k w) : (reach .binary32 m e).Contains (w/2^e) := by
  obtain ⟨-,hdigits,-⟩ := shortest_bounds hc he hd
  obtain ⟨-,hvalue,hplace⟩ := hn
  obtain ⟨b,hb,hb',hmeet⟩ : ∃ b : ℕ, 0 < b ∧ b < 2^27 ∧
      d.digits*ten e d.exponent = b*quarter e d.exponent := by
    obtain ⟨hl,hl',hu⟩ := reach_around .binary32 hc.pos e
    have hm := (canonical_single hc).1
    rcases h with h | h
    · exact ⟨_,by omega,by omega,h⟩
    · exact ⟨_,by omega,by omega,h⟩
  have hsmall := exponent_of_meets (hd.digits_pos hc.pos) hb hmeet (by omega) (by omega)
  have hexact := hread.exact (by omega) (hvalue ▸ short_of_meets (by omega) hmeet)
  rw [hexact,hvalue,← digits_units (e := e),mul_div_cancel_right₀ _ (by positivity)]
  exact (Reach.mem_iff (quarter_pos _ _)).1 hd.onGrid.mem

theorem readInReach_shortest (hc : Canonical .binary32 m e) (he : e ≤ 104) {n : ℕ} {k : ℤ}
    (hn : ReadAs (shortest .binary32 m e) n k) : ReadInReach m e n k := by
  have hd : Found .binary32 m e (shortest .binary32 m e) := found_shortest hc.pos
  have hposition := position_shortest hc he
  generalize shortest .binary32 m e = d at *
  obtain ⟨-,-,hexponent⟩ := shortest_bounds hc he hd
  have hplace := hn.place
  have hnpos : 0 < n := by
    by_contra hzero
    have hvalue := hn.value
    rw [Nat.eq_zero_of_not_pos hzero,Nat.cast_zero,zero_mul] at hvalue
    have : (0 : ℚ) < d.digits := by exact_mod_cast hd.digits_pos hc.pos
    exact absurd hvalue (by positivity)
  obtain ⟨y,w,hy,hw,hread⟩ := read_scale? (k := k) hnpos hn.lt (by omega)
  rcases hposition with hmargin | hmeets | hmiss
  · exact ⟨y,w,hy,hw,hread.contains_of_margin hc he hd hn.value hmargin⟩
  · exact ⟨y,w,hy,hw,hread.contains_of_meets hc he hd hn hmeets⟩
  · -- Its exponent is negative, so its digits are laid out with none added.
    have hneg := exponent_neg_of_nearMiss hmiss
    obtain rfl : k = d.exponent := by omega
    have hdigit : n = d.digits := by
      have := mul_right_cancel₀ (by positivity) hn.value
      exact_mod_cast this
    rw [hdigit]
    exact readInReach_of_nearMiss hc.pos hd hmiss

/-! ### Narrowing -/

theorem fit_of_reach {s : Sign} {M : ℕ} {E : ℤ} (hc : Canonical .binary32 m e) (hM : 0 < M)
    (h : (reach .binary32 m e).Contains (M*2^E/2^e)) :
    fit .binary32 (.finite s M E hM) = .finite s m e hc.pos := by
  have hrounds : Rounds .binary32 s (M*2^E) (round .binary32 s M E) := rounds_round hM E
  rw [← div_mul_cancel₀ ((M : ℚ)*2^E) (show (2 : ℚ)^e ≠ 0 by positivity)] at hrounds
  exact hrounds.eq_of_reach hc h

theorem unpack_neg {y : Float} {M : ℕ} {E : ℤ} {hM : 0 < M}
    (h : y.toModel.unpack = .finite .positive M E hM) (hbits : 2^52 ≤ M) :
    (-y).toModel.unpack = .finite .negative M E hM := by
  have hfinite := of_unpack_finite (by decide) h
  have hneg : (-y).toModel.unpack = unpack .binary64 (pack .binary64 y.toModel.unpack.neg) := rfl
  rw [hneg,h]
  exact unpack_pack hfinite.1 hfinite.2 hbits

/-- A single is read back from its shortest decimal, in whatever way its digits are laid out. -/
theorem narrow_of_readAs {x : Float32} {s : Sign} {hm : 0 < m}
    (hx : x.toModel.unpack = .finite s m e hm) {n : ℕ} {k : ℤ}
    (hn : ReadAs (shortest .binary32 m e) n k) :
    ∃ y, scale? (.ofNat n) k = some y ∧ narrow (if s == .negative then -y else y) = x := by
  obtain ⟨hc,he⟩ := of_unpack_finite (by decide) hx
  obtain ⟨y,w,hy,⟨M,E,hM,hu,-,hbits,rfl⟩,hin⟩ := readInReach_shortest hc he hn
  refine ⟨y,hy,?_⟩
  have hz : (if s == .negative then -y else y).toModel.unpack = .finite s M E hM := by
    cases s with
    | negative => exact unpack_neg hu hbits
    | positive => exact hu
  rw [narrow,hz,fit_of_reach hc hM hin,← hx]
  exact Float32.ofBits_toBits x

end Lindenmayer.Scalar
