import Lindenmayer.Proofs.Scalar.Error

/-! Numbers packed into bits. What is unpacked is stored as it should be, and a number with all its
bits is unpacked as it was packed. -/

namespace Lindenmayer.Scalar
open Float.Model Float.Model.UnpackedFloat

variable {spec : Format} {s : Sign} {m : ℕ} {e : ℤ}

/-- The exponent of the largest finite numbers. -/
def maxExponent (spec : Format) : ℤ :=
  spec.exponentBias-spec.mantissaBitsWithoutImplicit

theorem minExponent_eq (spec : Format) :
    spec.minExponent = 1-spec.exponentBias-spec.mantissaBitsWithoutImplicit := by
  have h : (1 : ℤ) ≤ 2^(spec.exponentBits-1) := by exact_mod_cast Nat.one_le_two_pow
  unfold Format.minExponent Format.exponentBias Format.mantissaBits
  push_cast [Nat.cast_sub Nat.one_le_two_pow]
  ring

theorem two_pow_exponentBits (spec : Format) :
    2^spec.exponentBits = 2*spec.exponentBias+2 := by
  obtain ⟨k,hk⟩ : ∃ k, spec.exponentBits = k+1 := ⟨_,(Nat.succ_pred_eq_of_pos spec.he).symm⟩
  have := Nat.one_le_two_pow (n := k)
  rw [Format.exponentBias,hk,pow_succ,Nat.add_sub_cancel]
  omega

theorem mantissaBits_sub_one (spec : Format) :
    spec.mantissaBits-1 = spec.mantissaBitsWithoutImplicit := Nat.add_sub_cancel_left _ _

theorem toNat_implicit {w : ℕ} (M : BitVec w) : (1#1 ++ M).toNat = 2^w+M.toNat := by
  rw [BitVec.toNat_append,← Nat.shiftLeft_add_eq_or_of_lt M.isLt]
  simp [Nat.shiftLeft_eq]

theorem pack_normal (h : Canonical spec m e) (hmax : e ≤ maxExponent spec)
    (hm : 2^spec.mantissaBitsWithoutImplicit ≤ m) :
    pack spec (.finite s m e h.pos) =
      packComponents spec s
        (.ofNat _ (e+spec.exponentBias+spec.mantissaBitsWithoutImplicit).toNat) (.ofNat _ m) := by
  have hlog : m.log2+1 = spec.mantissaBits := by
    have h₁ := (Nat.le_log2 h.pos.ne').2 hm
    have h₂ := (Nat.log2_lt h.pos.ne').2 h.lt
    unfold Format.mantissaBits at *
    omega
  have hroom : ¬ 2^spec.exponentBits ≤
      (e+spec.exponentBias+spec.mantissaBitsWithoutImplicit).toNat+1 := by
    rw [two_pow_exponentBits]
    unfold maxExponent at hmax
    omega
  simp only [UnpackedFloat.pack,if_neg hroom,if_pos hlog]

theorem toNat_ne_zero {w : ℕ} {b : BitVec w} (h : b ≠ 0#w) : b.toNat ≠ 0 := by
  simpa [BitVec.toNat_eq] using h

theorem toNat_lt_of_ne {w : ℕ} {b : BitVec w} (h : b ≠ -1#w) : b.toNat+1 < 2^w := by
  have hlt := b.isLt
  have hne : b.toNat ≠ 2^w-1 := by
    simpa [BitVec.toNat_eq,BitVec.neg_one_eq_allOnes] using h
  omega

section
variable {E : BitVec spec.exponentBits} {M : BitVec spec.mantissaBitsWithoutImplicit}

theorem unpack_special (h : E = -1#_) :
    unpack spec (packComponents spec s E M) = if M = 0#_ then .infinity s else .notANumber := by
  simp only [UnpackedFloat.unpack,unpackSign_packComponents,unpackExponent_packComponents,
    unpackMantissa_packComponents,Sign.ofBitVec_toBitVec,if_pos h]

theorem unpack_small (hE : BitVec.ofNat spec.exponentBits 0 ≠ -1#_) :
    unpack spec (packComponents spec s 0#_ M) =
      if h : M = 0#_ then .zero s
      else .finite s M.toNat spec.minExponent (Nat.pos_of_ne_zero (toNat_ne_zero h)) := by
  have he : ((BitVec.ofNat spec.exponentBits 0).toNat : ℤ)-
      (spec.exponentBias+spec.mantissaBitsWithoutImplicit)+1 = spec.minExponent := by
    rw [minExponent_eq,BitVec.toNat_zero]
    omega
  simp only [UnpackedFloat.unpack,unpackSign_packComponents,unpackExponent_packComponents,
    unpackMantissa_packComponents,Sign.ofBitVec_toBitVec,if_neg hE,if_true,he]

theorem unpack_normal (h₁ : E ≠ -1#_) (h₀ : E ≠ 0#_) :
    unpack spec (packComponents spec s E M) =
      .finite s (2^spec.mantissaBitsWithoutImplicit+M.toNat)
        (E.toNat-(spec.exponentBias+spec.mantissaBitsWithoutImplicit))
        (Nat.add_pos_left (Nat.two_pow_pos _) _) := by
  simp only [UnpackedFloat.unpack,unpackSign_packComponents,unpackExponent_packComponents,
    unpackMantissa_packComponents,Sign.ofBitVec_toBitVec,if_neg h₁,if_neg h₀,toNat_implicit]

end

theorem of_unpack_finite (hbias : 0 < spec.exponentBias) {b : BitVec spec.numBits} {h : 0 < m}
    (hb : unpack spec b = .finite s m e h) : Canonical spec m e ∧ e ≤ maxExponent spec := by
  obtain ⟨s',E,M,rfl⟩ : ∃ s E M, packComponents spec s E M = b :=
    ⟨_,_,_,packComponents_unpackSign_unpackExponent_unpackMantissa b⟩
  have hM := M.isLt
  have htwice := two_pow_mantissaBits spec
  rw [mantissaBits_sub_one] at htwice
  have hmin := minExponent_eq spec
  unfold maxExponent
  by_cases h₁ : E = -1#_
  · rw [unpack_special h₁] at hb
    split at hb <;> cases hb
  by_cases h₀ : E = 0#_
  · subst h₀
    rw [unpack_small h₁] at hb
    split at hb
    · cases hb
    cases hb
    exact ⟨⟨h,le_rfl,by omega,fun hlt => absurd hlt (lt_irrefl _)⟩,by omega⟩
  · have hE₀ := toNat_ne_zero h₀
    have hE₁ := toNat_lt_of_ne h₁
    rw [two_pow_exponentBits] at hE₁
    rw [unpack_normal h₁ h₀] at hb
    cases hb
    refine ⟨⟨h,by omega,by omega,fun _ => ?_⟩,by omega⟩
    rw [mantissaBits_sub_one]
    omega

/-- A number with all its bits is unpacked from the bits into which it is packed. -/
theorem unpack_pack (h : Canonical spec m e) (hmax : e ≤ maxExponent spec)
    (hm : 2^spec.mantissaBitsWithoutImplicit ≤ m) :
    unpack spec (pack spec (.finite s m e h.pos)) = .finite s m e h.pos := by
  rw [pack_normal h hmax hm]
  have hmin := h.min_le
  have hlt := h.lt
  have htwice := two_pow_mantissaBits spec
  rw [mantissaBits_sub_one] at htwice
  have hcap := two_pow_exponentBits spec
  rw [minExponent_eq] at hmin
  unfold maxExponent at hmax
  generalize hk : (e+spec.exponentBias+spec.mantissaBitsWithoutImplicit).toNat = k
  have hE : (BitVec.ofNat spec.exponentBits k).toNat = k := by
    rw [BitVec.toNat_ofNat,Nat.mod_eq_of_lt (by omega)]
  have hM : 2^spec.mantissaBitsWithoutImplicit+
      (BitVec.ofNat spec.mantissaBitsWithoutImplicit m).toNat = m := by
    rw [BitVec.toNat_ofNat,Nat.mod_eq_sub_mod hm,Nat.mod_eq_of_lt (by omega)]
    omega
  have h₁ : BitVec.ofNat spec.exponentBits k ≠ -1#_ := by
    intro h
    rw [h,BitVec.neg_one_eq_allOnes,BitVec.toNat_allOnes] at hE
    omega
  have h₀ : BitVec.ofNat spec.exponentBits k ≠ 0#_ := by
    intro h
    rw [h,BitVec.toNat_zero] at hE
    omega
  rw [unpack_normal h₁ h₀]
  congr 1
  rw [hE]
  omega

end Lindenmayer.Scalar
