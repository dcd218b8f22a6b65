import Lindenmayer.Proofs.Bracket.Tally

/-! Words in which the brackets match. Matching is kept when every symbol but the brackets is
replaced by such a word. -/

namespace Lindenmayer

/-- The brackets of the word match; any other symbols may stand between them. -/
inductive Balanced : Word → Prop
  | nil : Balanced []
  | symbol {c : Symbol} {w : Word} : Bracket.ofSymbol? c = none → Balanced w → Balanced (c::w)
  | group {v w : Word} : Balanced v → Balanced w → Balanced ('['::v ++ ']'::w)

namespace Balanced

theorem append {v w : Word} (hv : Balanced v) (hw : Balanced w) : Balanced (v++w) := by
  induction hv with
  | nil => exact hw
  | symbol hc _ ih => exact .symbol hc ih
  | @group u v hu _ _ ih => simpa using Balanced.group hu ih

theorem flatMap {f : Symbol → Word} (hf : ∀ c, Bracket.ofSymbol? c = none → Balanced (f c))
    (ho : f '[' = ['[']) (hc : f ']' = [']']) {w : Word} (hw : Balanced w) :
    Balanced (w.flatMap f) := by
  induction hw with
  | nil => exact .nil
  | symbol hn _ ih => simpa using (hf _ hn).append ih
  | group _ _ ihv ihw => simpa [ho,hc] using Balanced.group ihv ihw

theorem readAll {w : Word} (hw : Balanced w) (t : Tally) : t.readAll (Word.brackets w) = t := by
  induction hw generalizing t with
  | nil => rfl
  | symbol hn _ ih => rw [Word.brackets_cons_of_none hn]; exact ih t
  | group _ _ ihv ihw => simp [ihv,ihw,Tally.read]

theorem tally {w : Word} (hw : Balanced w) : Word.tally w = .zero := hw.readAll .zero

theorem stray_of_prefix {v w : Word} (hw : Balanced w) (h : v <+: w) :
    (Word.tally v).stray = 0 := by
  obtain ⟨u,rfl⟩ := h
  have hle := Tally.stray_le_stray_readAll (Word.tally v) (Word.brackets u)
  rw [← Word.tally_append,hw.tally] at hle
  exact Nat.le_zero.1 hle

end Balanced

/-- A word that closes one bracket more than it opens goes on after its first balanced part. -/
theorem exists_closing_of_readAll {w : Word} {k : Nat}
    (h : (Tally.mk 0 (k+1)).readAll (Word.brackets w) = .zero) :
    ∃ v r, w = v ++ ']'::r ∧ Balanced v ∧ (Tally.mk 0 k).readAll (Word.brackets r) = .zero := by
  induction hn : w.length using Nat.strongRecOn generalizing w k with
  | ind n ih =>
    subst hn
    cases w with
    | nil => simp [Tally.zero] at h
    | cons c w =>
      by_cases ho : c = '['
      · subst ho
        obtain ⟨v,r,rfl,hv,hr⟩ := ih w.length (by simp) (k := k+1) h rfl
        obtain ⟨v',r',rfl,hv',hr'⟩ := ih r.length (by simp; omega) hr rfl
        exact ⟨'['::v ++ ']'::v',r',by simp,.group hv hv',hr'⟩
      · by_cases hc : c = ']'
        · subst hc
          exact ⟨[],w,rfl,.nil,h⟩
        · have hn := Bracket.ofSymbol?_eq_none_iff.2 ⟨ho,hc⟩
          rw [Word.brackets_cons_of_none hn] at h
          obtain ⟨v,r,rfl,hv,hr⟩ := ih w.length (by simp) h rfl
          exact ⟨c::v,r,rfl,.symbol hn hv,hr⟩

theorem balanced_iff_tally {w : Word} : Balanced w ↔ Word.tally w = .zero := by
  constructor
  · exact Balanced.tally
  · intro h
    induction hn : w.length using Nat.strongRecOn generalizing w with
    | ind n ih =>
      subst hn
      cases w with
      | nil => exact .nil
      | cons c w =>
        by_cases ho : c = '['
        · subst ho
          obtain ⟨v,r,rfl,hv,hr⟩ := exists_closing_of_readAll (k := 0) h
          exact .group hv (ih r.length (by simp; omega) hr rfl)
        · by_cases hc : c = ']'
          · subst hc
            have hle : 1 ≤ ((Tally.mk 1 0).readAll (Word.brackets w)).stray :=
              Tally.stray_le_stray_readAll ⟨1,0⟩ _
            have hh := congrArg Tally.stray h
            change ((Tally.mk 1 0).readAll (Word.brackets w)).stray = 0 at hh
            omega
          · have hn := Bracket.ofSymbol?_eq_none_iff.2 ⟨ho,hc⟩
            rw [Word.tally,Word.brackets_cons_of_none hn] at h
            exact .symbol hn (ih w.length (by simp) h rfl)

instance : DecidablePred Balanced := fun _ => decidable_of_iff _ balanced_iff_tally.symm

example : Balanced "F[+F[-F]]G".toList := by decide
example : ¬ Balanced "F]F[".toList := by decide

end Lindenmayer
