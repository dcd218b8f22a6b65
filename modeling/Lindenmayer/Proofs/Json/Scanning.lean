import Lindenmayer.Proofs.Json.Syntax

/-! What is scanned as a numeral is what the grammar calls one, whatever follows it that cannot be a
part of it. -/

namespace Lindenmayer.Json

theorem digits_append {ds r : List Char} (hds : ∀ c ∈ ds, isDigit c = true)
    (hr : ∀ c ∈ r.head?, isDigit c = false) : digits (ds++r) = ds ∧ afterDigits (ds++r) = r := by
  induction ds with
  | nil =>
    cases r with
    | nil => exact ⟨rfl,rfl⟩
    | cons c r =>
      have hc := hr c rfl
      simp [digits,afterDigits,hc]
  | cons d ds ih =>
    obtain ⟨h₁,h₂⟩ := ih fun c hc => hds c (.tail _ hc)
    have hd := hds d (.head _)
    simp only [digits,afterDigits] at h₁ h₂
    simp [digits,afterDigits,hd,h₁,h₂]

namespace Numeral

/-- A text that does not go on with the numeral before it. -/
def Ends (r : List Char) : Prop := ∀ c ∈ r.head?, isDigit c = false ∧ c ≠ '.' ∧ c ≠ 'e' ∧ c ≠ 'E'

variable {s r : List Char}

theorem digits_of_digits_ne_nil (h : digits s ≠ []) : Digits (digits s) :=
  ⟨h,List.all_eq_true.1 List.all_takeWhile⟩

theorem scanWhole_text (hs : WholeText s) (hr : ∀ c ∈ r.head?, isDigit c = false) :
    scanWhole (s++r) = .ok (s,r) := by
  cases hs with
  | zero =>
    have hzero : ∀ c ∈ ['0'], isDigit c = true := List.forall_mem_singleton.2 rfl
    obtain ⟨hd,ha⟩ := digits_append hzero hr
    rw [scanWhole,hd,ha]
    rfl
  | digits hs hzero =>
    obtain ⟨hd,ha⟩ := digits_append hs.all hr
    rw [scanWhole,hd,ha]
    split
    · exact absurd rfl hs.ne_nil
    · rfl
    · simp at hzero
    · rfl

theorem wholeText_of_scan {w : List Char} (h : scanWhole s = .ok (w,r)) :
    WholeText w ∧ s = w++r := by
  have hs := digits_append_afterDigits s
  unfold scanWhole at h
  split at h
  · simp at h
  · rename_i hd
    simp only [Except.ok.injEq,Prod.mk.injEq] at h
    obtain ⟨rfl,rfl⟩ := h
    exact ⟨.zero,by rw [← hd,hs]⟩
  · simp at h
  · rename_i hnil _ hzero
    simp only [Except.ok.injEq,Prod.mk.injEq] at h
    obtain ⟨rfl,rfl⟩ := h
    refine ⟨.digits (digits_of_digits_ne_nil hnil) fun hhead => ?_,hs.symm⟩
    obtain ⟨t,ht⟩ := List.head?_eq_some_iff.1 hhead
    exact hzero t ht

theorem scanFraction_text (hs : FractionText s) (hr : ∀ c ∈ r.head?, isDigit c = false ∧ c ≠ '.') :
    scanFraction (s++r) = .ok (s.tail,r) := by
  cases hs with
  | none =>
    rw [List.nil_append]
    unfold scanFraction
    split
    · exact absurd rfl (hr '.' rfl).2
    · rfl
  | @some s hs =>
    obtain ⟨hd,ha⟩ := digits_append hs.all fun c hc => (hr c hc).1
    rw [List.cons_append,scanFraction,hd,ha]
    split
    · exact absurd rfl hs.ne_nil
    · rfl

theorem fractionText_of_scan {f : List Char} (h : scanFraction s = .ok (f,r)) :
    ∃ t, FractionText t ∧ s = t++r := by
  unfold scanFraction at h
  split at h
  · rename_i t
    have ht := digits_append_afterDigits t
    split at h
    · simp at h
    · rename_i hnil
      simp only [Except.ok.injEq,Prod.mk.injEq] at h
      obtain ⟨rfl,rfl⟩ := h
      exact ⟨_,.some (digits_of_digits_ne_nil hnil),by rw [List.cons_append,ht]⟩
  · simp only [Except.ok.injEq,Prod.mk.injEq] at h
    exact ⟨[],.none,h.2⟩

theorem scanSign_text {sign : List Char} (hsign : sign ∈ [[],['+'],['-']]) (hs : Digits s)
    (r : List Char) : scanSign (sign++(s++r)) = (sign == ['-'],s++r) := by
  simp only [List.mem_cons,List.not_mem_nil,or_false] at hsign
  rcases hsign with rfl | rfl | rfl
  · obtain ⟨c,t,rfl⟩ := List.exists_cons_of_ne_nil hs.ne_nil
    have hc := hs.all c (.head _)
    have hplus : c ≠ '+' := by rintro rfl; exact absurd hc (by decide)
    have hminus : c ≠ '-' := by rintro rfl; exact absurd hc (by decide)
    simp [scanSign,hplus,hminus]
  · rfl
  · rfl

theorem sign_of_scanSign (s : List Char) :
    ∃ sign ∈ [[],['+'],['-']], s = sign++(scanSign s).2 := by
  unfold scanSign
  split
  · exact ⟨['+'],by decide,rfl⟩
  · exact ⟨['-'],by decide,rfl⟩
  · exact ⟨[],by decide,rfl⟩

theorem scanExponent_nil (hr : Ends r) : scanExponent r = .ok (none,r) := by
  cases r with
  | nil => rfl
  | cons c r =>
    have hc := hr c rfl
    simp [scanExponent,hc]

theorem scanExponent_signed {c : Char} {sign : List Char} (hc : c = 'e' ∨ c = 'E')
    (hsign : sign ∈ [[],['+'],['-']]) (hs : Digits s) (hr : Ends r) :
    scanExponent (c::(sign++s)++r) =
      .ok (some (if sign == ['-'] then -(value s : Int) else value s),r) := by
  have hscan := scanSign_text hsign hs r
  obtain ⟨hd,ha⟩ := digits_append hs.all fun c hc => (hr c hc).1
  rw [List.cons_append,List.append_assoc,scanExponent,if_pos hc]
  simp only [hscan,hd,ha]
  split
  · exact absurd rfl hs.ne_nil
  · rfl

theorem scanExponent_text (hs : ExponentText s) :
    ∃ e, ∀ r, Ends r → scanExponent (s++r) = .ok (e,r) := by
  cases hs with
  | none => exact ⟨none,fun _ => scanExponent_nil⟩
  | some hc hsign hs => exact ⟨_,fun _ => scanExponent_signed hc hsign hs⟩

theorem exponentText_of_scan {e : Option Int} (h : scanExponent s = .ok (e,r)) :
    ∃ t, ExponentText t ∧ s = t++r := by
  unfold scanExponent at h
  split at h
  · rename_i c t
    split at h
    · rename_i hc
      obtain ⟨sign,hsign,ht⟩ := sign_of_scanSign t
      have hdigits := digits_append_afterDigits (scanSign t).2
      dsimp only at h
      split at h
      · simp at h
      · rename_i hnil
        simp only [Except.ok.injEq,Prod.mk.injEq] at h
        obtain ⟨-,rfl⟩ := h
        refine ⟨_,.some hc hsign (digits_of_digits_ne_nil hnil),?_⟩
        rw [List.cons_append,List.append_assoc,hdigits,← ht]
    · simp only [Except.ok.injEq,Prod.mk.injEq] at h
      exact ⟨[],.none,h.2⟩
  · simp only [Except.ok.injEq,Prod.mk.injEq] at h
    exact ⟨[],.none,h.2⟩

theorem sign_of_scanMinus (s : List Char) : ∃ sign ∈ [[],['-']], s = sign++(scanMinus s).2 := by
  unfold scanMinus
  split
  · exact ⟨['-'],by decide,rfl⟩
  · exact ⟨[],by decide,rfl⟩

theorem scan_ok {n : Numeral} (h : scan s = .ok (n,r)) :
    ∃ w f e r₁ r₂, scanWhole (scanMinus s).2 = .ok (w,r₁) ∧ scanFraction r₁ = .ok (f,r₂) ∧
      scanExponent r₂ = .ok (e,r) := by
  unfold scan at h
  split at h
  · simp at h
  · rename_i hw
    split at h
    · simp at h
    · rename_i hf
      split at h
      · simp at h
      · rename_i he
        simp only [Except.ok.injEq,Prod.mk.injEq] at h
        obtain ⟨-,rfl⟩ := h
        exact ⟨_,_,_,_,_,hw,hf,he⟩

theorem numeralText_of_scan {n : Numeral} (h : scan s = .ok (n,r)) :
    ∃ t, NumeralText t ∧ s = t++r := by
  obtain ⟨w,_,_,r₁,r₂,hwhole,hfraction,hexponent⟩ := scan_ok h
  obtain ⟨hw,hr⟩ := wholeText_of_scan hwhole
  obtain ⟨f,hf,rfl⟩ := fractionText_of_scan hfraction
  obtain ⟨e,he,rfl⟩ := exponentText_of_scan hexponent
  obtain ⟨sign,hsign,hs⟩ := sign_of_scanMinus s
  refine ⟨_,.intro hsign hw hf he,?_⟩
  rw [hs,hr]
  simp

theorem head?_exponentText (hs : ExponentText s) (hr : Ends r) :
    ∀ c ∈ (s++r).head?, isDigit c = false ∧ c ≠ '.' := by
  intro c hc
  cases hs with
  | none => exact ⟨(hr c hc).1,(hr c hc).2.1⟩
  | @some d _ _ hd _ _ =>
    obtain rfl : d = c := by simpa using hc
    rcases hd with rfl | rfl <;> decide

theorem head?_fractionText (hs : FractionText s) (hr : ∀ c ∈ r.head?, isDigit c = false) :
    ∀ c ∈ (s++r).head?, isDigit c = false := by
  intro c hc
  cases hs with
  | none => exact hr c hc
  | some _ =>
    obtain rfl : '.' = c := by simpa using hc
    decide

theorem wholeText_cons (hs : WholeText s) : ∃ c t, s = c::t ∧ isDigit c = true := by
  cases hs with
  | zero => exact ⟨'0',[],rfl,rfl⟩
  | digits hs _ =>
    obtain ⟨c,t,rfl⟩ := List.exists_cons_of_ne_nil hs.ne_nil
    exact ⟨c,t,rfl,hs.all c (.head _)⟩

theorem numeralText_cons (hs : NumeralText s) :
    ∃ c t, s = c::t ∧ (c = '-' ∨ isDigit c = true) := by
  obtain ⟨hsign,hw,_,_⟩ := hs
  obtain ⟨c,t,rfl,hc⟩ := wholeText_cons hw
  simp only [List.mem_cons,List.not_mem_nil,or_false] at hsign
  rcases hsign with rfl | rfl
  · exact ⟨c,_,rfl,.inr hc⟩
  · exact ⟨'-',_,rfl,.inl rfl⟩

theorem scanMinus_text {sign : List Char} (hsign : sign ∈ [[],['-']]) (hs : WholeText s)
    (r : List Char) : scanMinus (sign++(s++r)) = (sign == ['-'],s++r) := by
  simp only [List.mem_cons,List.not_mem_nil,or_false] at hsign
  rcases hsign with rfl | rfl
  · obtain ⟨c,t,rfl,hc⟩ := wholeText_cons hs
    have hminus : c ≠ '-' := by rintro rfl; exact absurd hc (by decide)
    simp [scanMinus,hminus]
  · rfl

theorem scan_parts {sign w f e : List Char} {k : Option Int} (hsign : sign ∈ [[],['-']])
    (hw : WholeText w) (hf : FractionText f) (he : ExponentText e) (hr : Ends r)
    (hexponent : scanExponent (e++r) = .ok (k,r)) :
    scan (sign++(w++(f++e))++r) = .ok (⟨sign == ['-'],w,f.tail,k⟩,r) := by
  have hpoint := head?_exponentText he hr
  have hminus := scanMinus_text hsign hw (f++(e++r))
  have hwhole := scanWhole_text hw (head?_fractionText hf fun c hc => (hpoint c hc).1)
  have hfraction := scanFraction_text hf hpoint
  have happend : sign++(w++(f++e))++r = sign++(w++(f++(e++r))) := by simp
  rw [happend,scan,hminus]
  simp only [hwhole,hfraction,hexponent]

/-- The numeral does not depend on what follows it. -/
theorem scan_numeralText (hs : NumeralText s) :
    ∃ n, ∀ r, Ends r → scan (s++r) = .ok (n,r) := by
  obtain ⟨hsign,hw,hf,he⟩ := hs
  obtain ⟨k,hexponent⟩ := scanExponent_text he
  exact ⟨_,fun r hr => scan_parts hsign hw hf he hr (hexponent r hr)⟩

end Numeral
end Lindenmayer.Json
