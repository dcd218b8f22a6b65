import Lindenmayer.Proofs.Scalar.Packing
import Lindenmayer.Scalar.Remainder

/-! Whole numbers in single precision. As long as they stay below `2 ^ 24` their sums are exact, and
so are their remainders. -/

namespace Lindenmayer.Scalar
open Float.Model Float.Model.UnpackedFloat

/-- The number that is stored, if it is one. -/
def unpackedValue? : UnpackedFloat → Option ℚ
  | .finite s m e _ => some (s.apply m*2^e)
  | .zero _ => some 0
  | _ => none

/-- What `x` stores is the whole number `n`; zero may have either sign. -/
def Whole (x : Float32) (n : ℤ) : Prop := unpackedValue? x.toModel.unpack = some (n : ℚ)

variable {s : Sign} {m : ℕ} {e : ℤ}

/-! ### Rounding -/

theorem shows_zero (spec : Format) (e : ℤ) : Shows (shiftToTargetExponent spec 0 e .exact).1 0 := by
  have h := (Shows.exact 0).shift (spec.targetExponent (totalExponent 0 e)-e).toNat
  rwa [Nat.cast_zero,zero_div] at h

theorem round_zero (spec : Format) (s : Sign) (e : ℤ) : round spec s 0 e = .zero s := by
  have hrounded (e : ℤ) : (shiftToTargetExponent spec 0 e .exact).1.roundedMantissa = 0 :=
    (shows_zero spec e).nearest.unique (by exact_mod_cast nearest_natCast 0)
  have hmantissa (e : ℤ) : (shiftToTargetExponent spec 0 e .exact).1.mantissa = 0 := by
    have := (shows_zero spec e).mantissa_le
    exact_mod_cast this.antisymm (Nat.cast_nonneg _)
  show stored s (shiftToTargetExponent spec
    (shiftToTargetExponent spec (0 <<< _) _ .exact).1.roundedMantissa
    (shiftToTargetExponent spec (0 <<< _) _ .exact).2 .exact) = _
  rw [Nat.zero_shiftLeft,hrounded,stored,dif_pos (hmantissa _)]

theorem unpack_zero (s : Sign) : unpack .binary32 (pack .binary32 (.zero s)) = .zero s := by
  cases s <;> rfl

theorem apply_value {k : ℕ} (h : (m : ℚ)*2^e = k) :
    ((s.apply m : ℤ) : ℚ)*2^e = (s.apply k : ℤ) := by
  cases s <;> simp [Sign.apply,h]

theorem value?_round {k : ℕ} (hk : k < 2^24) (hv : (m : ℚ)*2^e = k) :
    unpackedValue? (unpack .binary32 (pack .binary32 (round .binary32 s m e))) =
      some ((s.apply k : ℤ) : ℚ) := by
  rcases Nat.eq_zero_or_pos m with rfl | hm
  · have hzero : k = 0 := by
      rw [Nat.cast_zero,zero_mul] at hv
      exact_mod_cast hv.symm
    rw [hzero,round_zero,unpack_zero,unpackedValue?]
    cases s <;> rfl
  · have hpos : (1 : ℚ) ≤ k := by
      have h : (0 : ℚ) < k := hv ▸ by positivity
      exact_mod_cast h
    have hrounds : Rounds .binary32 s k (round .binary32 s m e) := hv ▸ rounds_round hm e
    obtain ⟨w,⟨n,T,hn,hu,hc,hbits,rfl⟩,hnear⟩ :=
      hrounds.normal ((zpow_le_one_of_nonpos₀ one_le_two (by decide)).trans hpos)
    have hexact : (n : ℚ)*2^T = k := hnear.exact ⟨k,0,hk,by simp⟩
    have hmax : T ≤ maxExponent .binary32 := by
      have hle : (2 : ℚ)^(23+T) ≤ k :=
        calc (2 : ℚ)^(23+T) = 2^23*2^T := zpow_add₀ two_ne_zero _ _
          _ ≤ n*2^T := mul_le_mul_of_nonneg_right (by exact_mod_cast hbits) (by positivity)
          _ = k := hexact
      have hlt : (k : ℚ) < 2^(24 : ℤ) := by exact_mod_cast hk
      have := zpow_lt_zpow_two.1 (hle.trans_lt hlt)
      have : maxExponent .binary32 = 104 := by decide
      omega
    rw [hu,unpack_pack hc hmax hbits,unpackedValue?,apply_value hexact]

/-! ### Sums and remainders -/

variable {x y : Float32} {n d : ℤ}

theorem Whole.of_finite {h : 0 < m} (hx : x.toModel.unpack = .finite s m e h)
    (hn : ((s.apply m : ℤ) : ℚ)*2^e = n) : Whole x n := by
  rw [Whole,hx,unpackedValue?,hn]

theorem exists_magnitude (h : ((s.apply m : ℤ) : ℚ)*2^e = n) :
    ∃ k : ℕ, (m : ℚ)*2^e = k ∧ n = s.apply k := by
  have hpos : (0 : ℚ) ≤ (m : ℚ)*2^e := by positivity
  cases s with
  | positive =>
    have h : (m : ℚ)*2^e = n := h
    obtain ⟨k,rfl⟩ := Int.eq_ofNat_of_zero_le (show 0 ≤ n by exact_mod_cast h ▸ hpos)
    exact ⟨k,h,rfl⟩
  | negative =>
    have h : (m : ℚ)*2^e = (-n : ℤ) := by
      rw [Int.cast_neg,← h,Sign.apply,Int.cast_neg,neg_mul,neg_neg,Int.cast_natCast]
    obtain ⟨k,hk⟩ := Int.eq_ofNat_of_zero_le (show 0 ≤ -n by exact_mod_cast h ▸ hpos)
    exact ⟨k,by rw [h,hk,Int.cast_natCast],by rw [Sign.apply,← hk,neg_neg]⟩

theorem Whole.cases (h : Whole x n) : (∃ s, x.toModel.unpack = .zero s ∧ n = 0) ∨
    ∃ s m e hm, ∃ k : ℕ, x.toModel.unpack = .finite s m e hm ∧ (m : ℚ)*2^e = k ∧ n = s.apply k := by
  unfold Whole at h
  cases hx : x.toModel.unpack with
  | notANumber => simp [hx,unpackedValue?] at h
  | infinity s => simp [hx,unpackedValue?] at h
  | zero s => exact .inl ⟨s,rfl,by simpa [hx,unpackedValue?] using h.symm⟩
  | finite s m e hm =>
    obtain ⟨k,hk⟩ := exists_magnitude (by simpa [hx,unpackedValue?] using h)
    exact .inr ⟨s,m,e,hm,k,rfl,hk⟩

theorem shiftLeft_value {k : ℤ} (hk : k ≤ e) : ((m <<< (e-k).toNat : ℕ) : ℚ)*2^k = m*2^e := by
  rw [Nat.shiftLeft_eq,Nat.cast_mul,Nat.cast_pow,Nat.cast_two,mul_assoc,← zpow_natCast,
    ← zpow_add₀ two_ne_zero,Int.toNat_of_nonneg (by omega),sub_add_cancel]

theorem whole_normalize {M : ℤ} (hn : |n| < 2^24) (hM : (M : ℚ)*2^e = n) :
    Whole (.ofModel (.pack (UnpackedFloat.normalize .binary32 M e .positive))) n := by
  show unpackedValue? (unpack .binary32 (pack .binary32 _)) = _
  rw [abs_lt] at hn
  unfold UnpackedFloat.normalize
  cases hc : compare M 0 with
  | lt =>
    obtain ⟨j,hj⟩ := Int.eq_ofNat_of_zero_le (neg_nonneg.2 (compare_lt_iff_lt.1 hc).le)
    obtain rfl : M = Sign.negative.apply j := by rw [Sign.apply,← hj,neg_neg]
    obtain ⟨k,hk,rfl⟩ := exists_magnitude hM
    rw [Sign.apply] at hn
    exact value?_round (by omega) (by rwa [Sign.apply,neg_neg])
  | eq =>
    obtain rfl : M = 0 := compare_eq_iff_eq.1 hc
    rw [Int.cast_zero,zero_mul] at hM
    rw [unpack_zero,← hM]
    rfl
  | gt =>
    obtain ⟨j,rfl⟩ := Int.eq_ofNat_of_zero_le (compare_gt_iff_gt.1 hc).le
    obtain ⟨k,hk,rfl⟩ := exists_magnitude (s := .positive) hM
    rw [Sign.apply] at hn
    exact value?_round (by omega) hk

theorem ofModel_pack_unpack (x : Float32) : .ofModel (.pack x.toModel.unpack) = x :=
  Float32.ofBits_toBits x

/-- Sums of whole numbers are exact while they stay below `2 ^ 24`. -/
theorem Whole.add (hx : Whole x n) (hy : Whole y d) (h : |n+d| < 2^24) : Whole (x+y) (n+d) := by
  show Whole (.ofModel (.pack (UnpackedFloat.add .binary32 x.toModel.unpack y.toModel.unpack))) _
  rcases hx.cases with ⟨s,hu,rfl⟩ | ⟨s,m,e,hm,k,hu,hk,rfl⟩ <;>
    rcases hy.cases with ⟨t,hv,rfl⟩ | ⟨t,l,f,hl,j,hv,hj,rfl⟩
  · rw [hu,hv]
    cases s <;> cases t <;> rfl
  · have hadd : UnpackedFloat.add .binary32 x.toModel.unpack y.toModel.unpack =
        y.toModel.unpack := by rw [hu,hv]; rfl
    rwa [hadd,ofModel_pack_unpack,zero_add]
  · have hadd : UnpackedFloat.add .binary32 x.toModel.unpack y.toModel.unpack =
        x.toModel.unpack := by rw [hu,hv]; rfl
    rwa [hadd,ofModel_pack_unpack,add_zero]
  · rw [hu,hv]
    have hx' := (shiftLeft_value (m := m) (min_le_left e f)).trans hk
    have hy' := (shiftLeft_value (m := l) (min_le_right e f)).trans hj
    refine whole_normalize h ?_
    rw [Int.cast_add,Int.cast_add,add_mul]
    exact congrArg₂ _ (apply_value hx') (apply_value hy')

section
variable {a b N D : ℕ}

theorem div_value (ha : (a : ℚ)*2^e = N) (hb : (b : ℚ)*2^e = D) (hD : 0 < D) : N/D = a/b := by
  have htwo : (0 : ℚ) < 2^e := by positivity
  have hb₀ : 0 < b := by
    refine Nat.pos_of_ne_zero fun h => hD.ne ?_
    rw [h,Nat.cast_zero,zero_mul] at hb
    exact_mod_cast hb
  refine Nat.div_eq_of_lt_le ?_ ?_
  · have h : ((a/b : ℕ) : ℚ)*b ≤ a := by exact_mod_cast Nat.div_mul_le_self a b
    have hscaled := mul_le_mul_of_nonneg_right h htwo.le
    rw [mul_assoc,hb,ha] at hscaled
    exact_mod_cast hscaled
  · have h : (a : ℚ) < ((a/b+1 : ℕ) : ℚ)*b := by
      exact_mod_cast Nat.mul_comm b _ ▸ Nat.lt_mul_div_succ a hb₀
    have hscaled := mul_lt_mul_of_pos_right h htwo
    rw [mul_assoc,hb,ha] at hscaled
    exact_mod_cast hscaled

theorem mod_value (ha : (a : ℚ)*2^e = N) (hb : (b : ℚ)*2^e = D) (hD : 0 < D) :
    ((a % b : ℕ) : ℚ)*2^e = (N % D : ℕ) := by
  have hscaled : (a : ℚ) = b*(a/b : ℕ)+(a % b : ℕ) := by
    exact_mod_cast (Nat.div_add_mod a b).symm
  have hwhole : (N : ℚ) = D*(a/b : ℕ)+(N % D : ℕ) := by
    rw [← div_value ha hb hD]
    exact_mod_cast (Nat.div_add_mod N D).symm
  calc ((a % b : ℕ) : ℚ)*2^e = a*2^e-b*2^e*(a/b : ℕ) := by rw [hscaled]; ring
    _ = N-D*(a/b : ℕ) := by rw [ha,hb]
    _ = (N % D : ℕ) := by rw [hwhole]; ring

end

theorem tmod_apply (s : Sign) (k : ℕ) (d : ℤ) :
    (s.apply k).tmod d = s.apply (k % d.natAbs : ℕ) := by
  have h : (k : ℤ).tmod d = (k % d.natAbs : ℕ) := by
    rcases Int.natAbs_eq d with hd | hd
    · rw [hd,Int.natAbs_natCast]
      exact Int.ofNat_tmod ..
    · rw [hd,Int.tmod_neg,Int.natAbs_neg,Int.natAbs_natCast]
      exact Int.ofNat_tmod ..
  cases s
  · rw [Sign.apply,Sign.apply,Int.neg_tmod,h]
  · exact h

/-- A remainder of whole numbers is exact; its sign is the dividend's. -/
theorem Whole.remainder (hx : Whole x n) (hy : Whole y d) (hd : d ≠ 0) (hd' : |d| ≤ 2^24) :
    Whole (remainder x y) (n.tmod d) := by
  rcases hy.cases with ⟨t,hv,rfl⟩ | ⟨t,l,f,hl,j,hv,hj,rfl⟩
  · exact absurd rfl hd
  have hj₀ : (t.apply j).natAbs = j := by cases t <;> simp [Sign.apply]
  rcases hx.cases with ⟨s,hu,rfl⟩ | ⟨s,m,e,hm,k,hu,hk,rfl⟩
  · rw [Scalar.remainder,hu,hv,Int.zero_tmod]
    show unpackedValue? (unpack .binary32 (pack .binary32 (.zero s))) = _
    rw [unpack_zero]
    rfl
  · have hx' := (shiftLeft_value (m := m) (min_le_left e f)).trans hk
    have hy' := (shiftLeft_value (m := l) (min_le_right e f)).trans hj
    have hpos : 0 < j := by omega
    rw [Scalar.remainder,hu,hv,tmod_apply,hj₀]
    refine value?_round ((Nat.mod_lt k hpos).trans_le ?_) (mod_value hx' hy' hpos)
    rw [Int.abs_eq_natAbs,hj₀] at hd'
    exact_mod_cast hd'

end Lindenmayer.Scalar
