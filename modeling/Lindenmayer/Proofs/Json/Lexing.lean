import Lindenmayer.Proofs.Json.Fragment

/-! Tokens are found exactly where the grammar has its smallest parts: strings, numerals, the three
words and the signs. -/

namespace Lindenmayer.Json

namespace Quoted

theorem hexValue?_isSome (x : Char) : (hexValue? x).isSome = true ↔
    '0' ≤ x ∧ x ≤ '9' ∨ 'a' ≤ x ∧ x ≤ 'f' ∨ 'A' ≤ x ∧ x ≤ 'F' := by
  unfold hexValue?
  split_ifs <;> simp_all

theorem hexQuad?_isSome (a b c d : Char) : (hexQuad? a b c d).isSome = true ↔
    ∀ x ∈ [a,b,c,d], (hexValue? x).isSome = true := by
  cases ha : hexValue? a <;> cases hb : hexValue? b <;> cases hc : hexValue? c <;>
    cases hd : hexValue? d <;> simp [hexQuad?,ha,hb,hc,hd]

theorem named?_isSome (c : Char) :
    (named? c).isSome = true ↔ c ∈ ['"','\\','/','b','f','n','r','t'] := by
  unfold named?
  split <;> simp_all

theorem scan_chars {s : List Char} (hs : Chars s) (done : List Piece) :
    ∃ ps, ∀ r, scan done (s ++ '"'::r) = (ps,.ok r) := by
  induction hs generalizing done with
  | nil => exact ⟨done.reverse,fun r => by rw [List.nil_append,scan]⟩
  | @plain c s hlow hquote hslash _ ih =>
    obtain ⟨ps,hps⟩ := ih (.char c::done)
    refine ⟨ps,fun r => ?_⟩
    have hnot : ¬ c.toNat < 0x20 := by omega
    rw [List.cons_append,scan,if_neg hnot,hps] <;> simp_all
  | @escape c s hc _ ih =>
    obtain ⟨e,he⟩ := Option.isSome_iff_exists.1 ((named?_isSome c).2 hc)
    obtain ⟨ps,hps⟩ := ih (.char e::done)
    refine ⟨ps,fun r => ?_⟩
    have hu : c ≠ 'u' := by rintro rfl; exact absurd hc (by decide)
    rw [List.cons_append,List.cons_append,scan,he]
    · exact hps r
    all_goals simp_all
  | @unit a b c d s hx _ ih =>
    have hquad := (hexQuad?_isSome a b c d).2 fun x hmem => (hexValue?_isSome x).2 (hx x hmem)
    obtain ⟨u,hu⟩ := Option.isSome_iff_exists.1 hquad
    obtain ⟨ps,hps⟩ := ih (.unit u::done)
    refine ⟨ps,fun r => ?_⟩
    simp only [List.cons_append,scan,hu]
    exact hps r

theorem chars_of_scan {done : List Piece} {s : List Char} {ps : List Piece} {r : List Char}
    (h : scan done s = (ps,.ok r)) : ∃ t, Chars t ∧ s = t ++ '"'::r := by
  fun_induction scan done s with
  | case1 | case3 | case5 | case6 | case8 | case9 => simp at h
  | case2 =>
    obtain ⟨-,rfl⟩ : _ ∧ _ = r := by simpa using h
    exact ⟨[],.nil,rfl⟩
  | case4 done a b c d s u hu ih =>
    obtain ⟨t,ht,rfl⟩ := ih h
    have hquad : (hexQuad? a b c d).isSome = true := by rw [hu]; rfl
    refine ⟨_,.unit (fun x hx => ?_) ht,rfl⟩
    exact (hexValue?_isSome x).1 ((hexQuad?_isSome a b c d).1 hquad x hx)
  | case7 done c s e _ _ he ih =>
    obtain ⟨t,ht,rfl⟩ := ih h
    exact ⟨_,.escape ((named?_isSome c).1 (by rw [he]; rfl)) ht,rfl⟩
  | case10 done c s hquote _ _ _ hescape hlow ih =>
    obtain ⟨t,ht,rfl⟩ := ih h
    have hslash : c ≠ '\\' := fun hc => by
      cases t with
      | nil => exact hescape _ _ hc rfl
      | cons => exact hescape _ _ hc rfl
    exact ⟨_,.plain (by omega) hquote hslash ht,rfl⟩

end Quoted

namespace Token

/-- How a token that does not break off is written. -/
inductive Spelling : Token → List Char → Prop
  | openList : Spelling .openList ['[']
  | closeList : Spelling .closeList [']']
  | openObject : Spelling .openObject ['\x7b']
  | closeObject : Spelling .closeObject ['\x7d']
  | comma : Spelling .comma [',']
  | colon : Spelling .colon [':']
  | string (k : Option Word) {s : List Char} (hs : Chars s) : Spelling (.string k) (stringText s)
  | nullWord : Spelling (.plain .null) ['n','u','l','l']
  | trueWord : Spelling (.plain (.bool true)) ['t','r','u','e']
  | falseWord : Spelling (.plain (.bool false)) ['f','a','l','s','e']
  | number (n : Numeral) {s : List Char} (hs : NumeralText s) : Spelling (.plain (.number n)) s

def isBroken : Token → Bool
  | .broken _ | .brokenString _ => true
  | _ => false

theorem expect_ok {w s r : List Char} (h : expect w s = .ok r) : s = w++r := by
  fun_induction expect w s with
  | case1 => simpa using h
  | case2 | case4 => simp at h
  | case3 w c s ih => rw [ih h,List.cons_append]

section
variable {s r : List Char} {t : Token} (ht : t.isBroken = false)
include ht

theorem ofWord_ok {v : Json} {w : List Char} (h : ofWord v (expect w s) = (t,r)) :
    t = .plain v ∧ s = w++r := by
  unfold ofWord at h
  split at h
  · rename_i hw
    obtain ⟨rfl,rfl⟩ := Prod.mk.inj h
    exact ⟨rfl,expect_ok hw⟩
  · obtain ⟨rfl,-⟩ := Prod.mk.inj h
    simp [isBroken] at ht

theorem ofString_ok (h : ofString s = (t,r)) :
    ∃ k w, Chars w ∧ t = .string k ∧ s = w ++ '"'::r := by
  unfold ofString at h
  split at h
  · rename_i hs
    obtain ⟨rfl,rfl⟩ := Prod.mk.inj h
    obtain ⟨w,hw,rfl⟩ := Quoted.chars_of_scan hs
    exact ⟨_,w,hw,rfl,rfl⟩
  · obtain ⟨rfl,-⟩ := Prod.mk.inj h
    simp [isBroken] at ht

theorem ofNumeral_ok (h : ofNumeral s = (t,r)) :
    ∃ n w, NumeralText w ∧ t = .plain (.number n) ∧ s = w++r := by
  unfold ofNumeral at h
  split at h
  · rename_i n _ hs
    obtain ⟨rfl,rfl⟩ := Prod.mk.inj h
    obtain ⟨w,hw,rfl⟩ := Numeral.numeralText_of_scan hs
    exact ⟨n,w,hw,rfl,rfl⟩
  · obtain ⟨rfl,-⟩ := Prod.mk.inj h
    simp [isBroken] at ht

theorem spelling_of_scan {c : Char} (h : scan c s = (t,r)) : ∃ w, t.Spelling w ∧ c::s = w++r := by
  unfold scan at h
  split at h
  case h_7 =>
    obtain ⟨k,w,hw,rfl,rfl⟩ := ofString_ok ht h
    exact ⟨_,.string k hw,by simp [stringText]⟩
  case h_8 => obtain ⟨rfl,rfl⟩ := ofWord_ok ht h; exact ⟨_,.nullWord,rfl⟩
  case h_9 => obtain ⟨rfl,rfl⟩ := ofWord_ok ht h; exact ⟨_,.trueWord,rfl⟩
  case h_10 => obtain ⟨rfl,rfl⟩ := ofWord_ok ht h; exact ⟨_,.falseWord,rfl⟩
  case h_11 =>
    by_cases hc : c = '-' ∨ isDigit c = true
    · rw [if_pos hc] at h
      obtain ⟨n,w,hw,rfl,hs⟩ := ofNumeral_ok ht h
      exact ⟨w,.number n hw,hs⟩
    · rw [if_neg hc] at h
      obtain ⟨rfl,-⟩ := Prod.mk.inj h
      simp [isBroken] at ht
  -- The signs are left, each a token of one character.
  all_goals
    obtain ⟨rfl,rfl⟩ := Prod.mk.inj h
    exact ⟨[_],by constructor,rfl⟩

end

theorem blanks_takeWhile (s : List Char) : Blanks (s.takeWhile isBlank) := by
  intro c hc
  have hblank := List.all_eq_true.1 List.all_takeWhile c hc
  simpa [isBlank,or_assoc] using hblank

theorem spelling_of_next? {s : List Char} {t : Token} {r : List Char}
    (h : next? s = some (t,r)) (ht : t.isBroken = false) :
    ∃ b w, Blanks b ∧ t.Spelling w ∧ s = b++(w++r) := by
  unfold next? at h
  split at h
  · simp at h
  · rename_i c u hs
    obtain ⟨w,hw,hr⟩ := spelling_of_scan ht (Option.some.inj h)
    exact ⟨_,w,blanks_takeWhile s,hw,by rw [← hr,← hs,List.takeWhile_append_dropWhile]⟩

theorem blanks_of_next? {s : List Char} (h : next? s = none) : Blanks s := by
  unfold next? at h
  split at h
  · rename_i hs
    have happend := s.takeWhile_append_dropWhile (p := isBlank)
    rw [hs,List.append_nil] at happend
    rw [← happend]
    exact blanks_takeWhile s
  · simp at h

end Token

theorem next?_stringText {s : List Char} (hs : Chars s) :
    ∃ k, ∀ r, Token.next? (stringText s ++ r) = some (.string k,r) := by
  obtain ⟨ps,hps⟩ := Quoted.scan_chars hs []
  refine ⟨Quoted.text? ps,fun r => ?_⟩
  have happend : stringText s ++ r = '"'::(s ++ '"'::r) := by simp [stringText]
  rw [happend,Token.next?_cons (by decide)]
  show some (Token.ofString _) = _
  rw [Token.ofString,hps r]

theorem next?_numeralText {s : List Char} (hs : NumeralText s) :
    ∃ n, ∀ r, Numeral.Ends r → Token.next? (s++r) = some (.plain (.number n),r) := by
  obtain ⟨n,hn⟩ := Numeral.scan_numeralText hs
  exact ⟨n,fun r hr => Token.next?_of_scan (Numeral.numeralText_cons hs) (hn r hr)⟩

end Lindenmayer.Json
