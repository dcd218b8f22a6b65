import Lindenmayer.Json.Token

/-! Strings that are written are read back: every character comes back as one piece, whether it
stands for itself or is escaped. -/

namespace Lindenmayer.Json

namespace Quoted

theorem hexQuad?_hexDigit : ∀ n < 0x20,
    hexQuad? '0' '0' (hexDigit (n/16)) (hexDigit (n%16)) = some n := by
  decide

theorem assemble_unit {c : Char} (h : c.toNat < 0x20) (done : Word) (ps : List Piece) :
    assemble done (.unit c.toNat::ps) = assemble (c::done) ps := by
  have hlow : isLow c.toNat = false := by simp [isLow]; omega
  have hhigh : isHigh c.toNat = false := by simp [isHigh]; omega
  rw [assemble.eq_def]
  simp only [hlow,hhigh,Bool.false_eq_true,if_false,Char.ofNat_toNat]

theorem scan_escaped (c : Char) : ∃ p : Piece,
    (∀ done r, scan done (escaped c++r) = scan (p::done) r) ∧
    ∀ done ps, assemble done (p::ps) = assemble (c::done) ps := by
  unfold escaped
  split
  case h_8 hquote hslash _ _ _ _ _ =>
    by_cases hc : c.toNat < 0x20
    · refine ⟨.unit c.toNat,fun done r => ?_,assemble_unit hc⟩
      have hx := hexQuad?_hexDigit c.toNat hc
      simp [hc,scan,hx]
    · refine ⟨.char c,fun done r => ?_,fun done ps => rfl⟩
      simp only [hc,if_false,List.cons_append,List.nil_append]
      rw [scan]
      · simp [hc]
      all_goals simp_all
  all_goals exact ⟨.char _,fun done r => by simp [scan,named?],fun done ps => rfl⟩

theorem scan_flatMap_escaped (w : Word) (done : List Piece) (r : List Char) :
    ∃ ps, scan done (w.flatMap escaped ++ '"'::r) = (done.reverse++ps,.ok r) ∧
      ∀ front, assemble front ps = some (front.reverse++w,false) := by
  induction w generalizing done with
  | nil => exact ⟨[],by simp [scan],fun front => by simp [assemble]⟩
  | cons c w ih =>
    obtain ⟨p,hscan,hassemble⟩ := scan_escaped c
    obtain ⟨ps,h₁,h₂⟩ := ih (p::done)
    refine ⟨p::ps,?_,fun front => ?_⟩
    · rw [List.flatMap_cons,List.append_assoc,hscan,h₁]
      simp
    · rw [hassemble,h₂]
      simp

theorem text?_of_assemble {ps : List Piece} {w : Word} (h : assemble [] ps = some (w,false)) :
    text? ps = some w := by
  rw [text?,h]

end Quoted

/-- A quoted word is one token. -/
theorem Token.ofString_quote (w : Word) (r : List Char) :
    Token.ofString (w.flatMap Quoted.escaped ++ '"'::r) = (.string (some w),r) := by
  obtain ⟨ps,h₁,h₂⟩ := Quoted.scan_flatMap_escaped w [] r
  have ht : Quoted.text? ps = some w := Quoted.text?_of_assemble (h₂ [])
  rw [Token.ofString,h₁]
  simp [ht]

end Lindenmayer.Json
