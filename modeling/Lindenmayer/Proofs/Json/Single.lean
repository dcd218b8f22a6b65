import Lindenmayer.Proofs.Json.Rendering
import Lindenmayer.Proofs.Scalar.Readback

/-! Singles in documents. Their numerals are well written, and a reader takes the digits and the
exponent of the shortest decimal from them, however these are laid out. -/

namespace Lindenmayer.Json
open Scalar Float.Model Float.Model.UnpackedFloat

/-! ### Gathering digits -/

theorem le_ofDigitChars (ds : List Char) (n : ℕ) : n ≤ Nat.ofDigitChars 10 ds n := by
  rw [Nat.ofDigitChars_eq_ofDigitChars_zero]
  exact Nat.le_add_right_of_le (Nat.le_mul_of_pos_left n (by positivity))

theorem gather_eq {ds : List Char} {n : ℕ} (h : Nat.ofDigitChars 10 ds n < UInt64.size) :
    gather n ds = (Nat.ofDigitChars 10 ds n,0) := by
  induction ds generalizing n with
  | nil => rfl
  | cons c ds ih =>
    have hcons : Nat.ofDigitChars 10 (c::ds) n = Nat.ofDigitChars 10 ds (10*n+digitValue c) :=
      Nat.ofDigitChars_cons
    rw [hcons] at h ⊢
    have hlt := (le_ofDigitChars ds _).trans_lt h
    rw [gather,if_pos hlt]
    exact ih h

theorem value_append (ds es : List Char) :
    value (ds++es) = Nat.ofDigitChars 10 es (value ds) := Nat.ofDigitChars_append 0

theorem value_append_zeros (ds : List Char) (n : ℕ) :
    value (ds++List.replicate n '0') = 10^n*value ds := by
  rw [value_append,Nat.ofDigitChars_replicate_zero]

theorem value_zeros_append (n : ℕ) (ds : List Char) :
    value (List.replicate n '0'++ds) = value ds := by
  have hzero : value (List.replicate n '0') = 0 := Nat.ofDigitChars_replicate_zero
  rw [value_append,hzero]
  rfl

theorem length_decimal_le {n k : ℕ} (hk : 0 < k) : (decimal n).length ≤ k ↔ n < 10^k :=
  Nat.length_toDigits_le_iff (by decide) hk

namespace Numeral

/-- What a reader makes of a numeral that has not too many digits. -/
theorem floating?_eq {n : Numeral} (h : value (n.whole++n.fraction) < UInt64.size) :
    n.floating? =
      (scale? (.ofNat (value (n.whole++n.fraction)))
        (n.exponent.getD 0-n.fraction.length)).map fun x => if n.negative then -x else x := by
  rw [value_append] at h ⊢
  have hwhole : gather 0 n.whole = (value n.whole,0) :=
    gather_eq ((le_ofDigitChars n.fraction (value n.whole)).trans_lt h)
  have hplaces : ((0 : ℕ) : ℤ)+(0 : ℕ)-n.fraction.length+n.exponent.getD 0 =
      n.exponent.getD 0-n.fraction.length := by omega
  simp only [floating?,hwhole,gather_eq h,hplaces]

end Numeral

/-! ### Laying out digits -/

/-- What a numeral shows of a decimal. -/
structure Shows (n : Numeral) (negative : Bool) (d : Decimal) : Prop where
  written : n.Written
  floating : n.isInteger = false
  sign : n.negative = negative
  reads : ReadAs d (value (n.whole++n.fraction)) (n.exponent.getD 0-n.fraction.length)

section
variable {k : ℕ} {p : ℤ} (negative : Bool)

theorem isDigit_of_mem_zeros {n : ℕ} {c : Char} (h : c ∈ List.replicate n '0') :
    isDigit c = true := by
  rw [List.eq_of_mem_replicate h]
  rfl

theorem written_of_head {n : Numeral} (hk : k ≠ 0) (hhead : n.whole.head? = (decimal k).head?)
    (hdigits : ∀ c ∈ n.whole++n.fraction, isDigit c = true) : n.Written where
  whole_digits c hc := hdigits c (List.mem_append_left _ hc)
  whole_ne_nil hnil := by
    rw [hnil,List.head?_nil,eq_comm,List.head?_eq_none_iff] at hhead
    exact decimal_ne_nil k hhead
  no_leading_zero ds hzero := by
    rw [hzero] at hhead
    exact absurd hhead.symm (head?_decimal hk)
  fraction_digits c hc := hdigits c (List.mem_append_right _ hc)

theorem readAs_digits {n : ℕ} {j : ℤ} (hk : k < 10^9) (hn : n = k) (hj : j = p) :
    ReadAs ⟨k,p⟩ n j := by
  subst hn hj
  exact ⟨by omega,rfl,.inl rfl⟩

theorem readAs_place (hp : 0 ≤ p) (h : p+(decimal k).length ≤ 13) :
    ReadAs ⟨k,p⟩ (10^(p.toNat+1)*k) (-1) := by
  have hlength := List.length_pos_of_ne_nil (decimal_ne_nil k)
  have hk : k < 10^(13-p.toNat) := (length_decimal_le (by omega)).1 (by omega)
  refine ⟨?_,?_,.inr ⟨rfl,hp⟩⟩
  · calc 10^(p.toNat+1)*k < 10^(p.toNat+1)*10^(13-p.toNat) :=
          Nat.mul_lt_mul_of_pos_left hk (by positivity)
      _ = 10^14 := by
        rw [← pow_add]
        congr 1
        omega
      _ < 2^53 := by norm_num
  · have hpow : (10 : ℚ)^p = 10^p.toNat := by
      rw [← zpow_natCast,Int.toNat_of_nonneg hp]
    push_cast
    rw [hpow,pow_succ,zpow_neg_one]
    field_simp

theorem shows_integral (hk : k ≠ 0) (hp : 0 ≤ p) (h : p+(decimal k).length ≤ 13) :
    Shows ⟨negative,decimal k++List.replicate p.toNat '0',['0'],none⟩ negative ⟨k,p⟩ := by
  have hdigits : (decimal k++List.replicate p.toNat '0')++['0'] =
      decimal k++List.replicate (p.toNat+1) '0' := by
    rw [List.append_assoc,List.replicate_succ']
  refine ⟨written_of_head hk ?_ fun c hc => ?_,rfl,rfl,?_⟩
  · exact List.head?_append_of_ne_nil _ (decimal_ne_nil k)
  · rw [hdigits] at hc
    exact (List.mem_append.1 hc).elim isDigit_of_mem_decimal isDigit_of_mem_zeros
  · rw [hdigits,value_append_zeros,value_decimal]
    exact readAs_place hp h

theorem shows_split (hk : k ≠ 0) (hk' : k < 10^9) {j : ℕ} (hj : 0 < j) {x : Option ℤ}
    (h : x.getD 0-((decimal k).length-j : ℕ) = p) (hx : (decimal k).length ≤ j → x.isSome) :
    Shows ⟨negative,(decimal k).take j,(decimal k).drop j,x⟩ negative ⟨k,p⟩ := by
  refine ⟨written_of_head hk ?_ fun c hc => ?_,?_,rfl,?_⟩
  · exact List.head?_take.trans (if_neg hj.ne')
  · rw [List.take_append_drop] at hc
    exact isDigit_of_mem_decimal hc
  · rw [Numeral.isInteger]
    by_cases hlen : (decimal k).length ≤ j
    · simp [Option.isNone_eq_false_iff.2 (hx hlen)]
    · simp [List.drop_eq_nil_iff,hlen]
  · rw [List.take_append_drop,value_decimal,List.length_drop]
    exact readAs_digits hk' rfl h

theorem shows_fraction (hk' : k < 10^9) {j : ℕ} (h : -(j+(decimal k).length : ℤ) = p) :
    Shows ⟨negative,['0'],List.replicate j '0'++decimal k,none⟩ negative ⟨k,p⟩ := by
  have hdigits : ['0']++(List.replicate j '0'++decimal k) =
      List.replicate (j+1) '0'++decimal k := rfl
  refine ⟨⟨fun c hc => ?_,List.cons_ne_nil _ _,?_,fun c hc => ?_⟩,?_,rfl,?_⟩
  · rw [List.mem_singleton.1 hc]
    rfl
  · rintro ds ⟨⟩
    rfl
  · exact (List.mem_append.1 hc).elim isDigit_of_mem_zeros isDigit_of_mem_decimal
  · simp [Numeral.isInteger,decimal_ne_nil]
  · rw [hdigits,value_zeros_append,value_decimal]
    refine readAs_digits hk' rfl ?_
    rw [← h,List.length_append,List.length_replicate]
    simp

end

theorem shows_numeral (negative : Bool) {d : Decimal} (h₀ : 0 < d.digits) (h : d.digits < 10^9) :
    Shows (Layout.single.numeral negative d) negative d := by
  obtain ⟨k,p⟩ := d
  dsimp only at h₀ h
  have hlength := List.length_pos_of_ne_nil (decimal_ne_nil k)
  unfold Layout.numeral
  dsimp only
  split
  · rename_i hrange
    have hhigh : p+(decimal k).length-1 ≤ 12 := hrange.2
    split
    · exact shows_integral negative h₀.ne' (by omega) (by omega)
    · split
      · exact shows_split negative h₀.ne' h (by omega) (by simp; omega) (by omega)
      · exact shows_fraction negative h (by omega)
  · exact shows_split negative h₀.ne' h (by omega) (by simp; omega) fun _ => rfl

/-! ### Singles -/

theorem written_zero (negative : Bool) : Numeral.Written ⟨negative,['0'],['0'],none⟩ :=
  have hdigit (c : Char) (hc : c ∈ ['0']) : isDigit c = true := by
    rw [List.mem_singleton.1 hc]
    rfl
  ⟨hdigit,List.cons_ne_nil _ _,by rintro ds ⟨⟩; rfl,hdigit⟩

theorem single_of_floating {n : Numeral} {y : Float} (hn : n.isInteger = false)
    (hy : n.floating? = some y) : (valueOf n).map Number.single = .ok (narrow y) := by
  rw [valueOf,Numeral.number?,hn,if_neg Bool.false_ne_true,hy]
  rfl

theorem floating_zero (negative : Bool) :
    Numeral.floating? ⟨negative,['0'],['0'],none⟩ =
      some (if negative then -(Float.ofNat 0/powerOfTen 1) else Float.ofNat 0/powerOfTen 1) := by
  have hsmall : value (['0']++['0']) < UInt64.size := by decide
  exact (Numeral.floating?_eq hsmall).trans
    (congrArg (Option.map _) (scale?_neg (.ofNat 0) one_pos (by decide)))

theorem narrow_zero (s : Sign) :
    narrow (if s == .negative then -(Float.ofNat 0/powerOfTen 1) else Float.ofNat 0/powerOfTen 1) =
      .ofModel (.pack (.zero s)) := by
  cases s <;> decide +kernel

/-- A finite single is written as a number and read back from it, whichever sign a zero has. -/
theorem exists_numeral {x : Float32} (hx : x.isFinite = true) :
    ∃ n, Numeral.ofSingle? x = some n ∧ n.Written ∧ (valueOf n).map Number.single = .ok x := by
  have hfinite : x.toModel.unpack.isFinite = true := hx
  unfold Numeral.ofSingle?
  cases hu : x.toModel.unpack with
  | infinity s =>
    rw [hu] at hfinite
    cases hfinite
  | notANumber =>
    rw [hu] at hfinite
    cases hfinite
  | zero s =>
    refine ⟨_,rfl,written_zero _,?_⟩
    rw [single_of_floating rfl (floating_zero _),narrow_zero,← hu]
    exact congrArg Except.ok (Float32.ofBits_toBits x)
  | finite s m e hm =>
    obtain ⟨hc,he⟩ := of_unpack_finite (by decide) hu
    have hd : Shortest.Found .binary32 m e (shortest .binary32 m e) := Shortest.found_shortest hm
    obtain ⟨-,hdigits,-⟩ := shortest_bounds hc he hd
    have hshows := shows_numeral (s == .negative) (hd.digits_pos hm) hdigits
    obtain ⟨y,hy,hnarrow⟩ := narrow_of_readAs hu hshows.reads
    refine ⟨_,rfl,hshows.written,?_⟩
    have hfloating := Numeral.floating?_eq (hshows.reads.lt.trans (by decide))
    rw [hy,hshows.sign] at hfloating
    rw [single_of_floating hshows.floating hfloating]
    exact congrArg Except.ok hnarrow

theorem intact_single {x : Float32} (hx : x.isFinite = true) : (single x).Intact := by
  obtain ⟨n,hn,hwritten,-⟩ := exists_numeral hx
  rw [single,hn]
  exact .number hwritten

theorem toSingle_single {x : Float32} (hx : x.isFinite = true) : (single x).toSingle = .ok x := by
  obtain ⟨n,hn,-,hvalue⟩ := exists_numeral hx
  rw [single,hn]
  exact hvalue

end Lindenmayer.Json
