import Lindenmayer.Proofs.Bracket.Balanced

/-! The trunk of a word: what is left when every group that is closed in it is deleted, and the
brackets still open as well. It is the way from the root to where the word ends. -/

namespace Lindenmayer
namespace Word

/-- Reads backwards; the last `k` groups that are open where it starts are left out as well. -/
def trunkBack : Nat → Word → Word
  | _,[] => []
  | k,c::w =>
    match Bracket.ofSymbol? c with
    | some .closing => trunkBack (k+1) w
    | some .opening => trunkBack (k-1) w
    | none => if k = 0 then c::trunkBack 0 w else trunkBack k w

/-- The trunk as it would be after `k` more closing brackets. -/
def trunkAfter (k : Nat) (w : Word) : Word := (trunkBack k w.reverse).reverse

def trunk (w : Word) : Word := trunkAfter 0 w

@[simp] theorem trunkAfter_closing (k : Nat) (w : Word) :
    trunkAfter k (w++[']']) = trunkAfter (k+1) w := by
  simp [trunkAfter,trunkBack,Bracket.ofSymbol?]
@[simp] theorem trunkAfter_opening (k : Nat) (w : Word) :
    trunkAfter k (w++['[']) = trunkAfter (k-1) w := by
  simp [trunkAfter,trunkBack,Bracket.ofSymbol?]
theorem trunkAfter_zero_symbol {c : Symbol} (hc : Bracket.ofSymbol? c = none) (w : Word) :
    trunkAfter 0 (w++[c]) = trunkAfter 0 w ++ [c] := by
  simp [trunkAfter,trunkBack,hc]
theorem trunkAfter_succ_symbol {c : Symbol} (hc : Bracket.ofSymbol? c = none) (k : Nat)
    (w : Word) : trunkAfter (k+1) (w++[c]) = trunkAfter (k+1) w := by
  simp [trunkAfter,trunkBack,hc]

theorem trunkBack_append_congr {v w : Word} (h : ∀ k, trunkBack k v = trunkBack k w) (u : Word)
    (k : Nat) : trunkBack k (u++v) = trunkBack k (u++w) := by
  induction u generalizing k with
  | nil => exact h k
  | cons c u ih =>
    simp only [List.cons_append,trunkBack]
    split
    · exact ih (k+1)
    · exact ih (k-1)
    · split
      · rw [ih 0]
      · exact ih k

theorem trunkBack_reverse_balanced {v : Word} (hv : Balanced v) (k : Nat) (w : Word) :
    trunkBack (k+1) (v.reverse++w) = trunkBack (k+1) w := by
  induction hv generalizing k w with
  | nil => rfl
  | @symbol c v hc _ ih =>
    rw [List.reverse_cons,List.append_assoc,ih]
    simp [trunkBack,hc]
  | @group u v _ _ ihu ihv =>
    have hs : ('['::u ++ ']'::v).reverse++w = v.reverse ++ (']'::(u.reverse ++ ('['::w))) := by simp
    rw [hs,ihv]
    change trunkBack (k+2) (u.reverse ++ ('['::w)) = _
    rw [ihu]
    rfl

/-- Deleting a closed group with its brackets leaves the trunk as it is. -/
theorem trunk_delete_group (u : Word) {v : Word} (hv : Balanced v) (w : Word) :
    trunk (u ++ ('['::v ++ ']'::w)) = trunk (u++w) := by
  have hgroup (k : Nat) : trunkBack k (']'::(v.reverse ++ ('['::u.reverse))) =
      trunkBack k u.reverse := by
    change trunkBack (k+1) (v.reverse ++ ('['::u.reverse)) = _
    rw [trunkBack_reverse_balanced hv]
    rfl
  have hh := trunkBack_append_congr hgroup w.reverse 0
  simpa [trunk,trunkAfter] using hh

/-- Where nothing is closed, only the open brackets themselves are missing. -/
theorem trunk_of_no_closing {w : Word} (h : ']' ∉ w) : trunk w = w.filter (· ≠ '[') := by
  induction w using List.reverseRecOn with
  | nil => rfl
  | append_singleton w c ih =>
    have hw := ih fun hm => h (List.mem_append_left _ hm)
    have hc : c ≠ ']' := fun he => h (by simp [he])
    by_cases ho : c = '['
    · subst ho
      simpa [trunk] using hw
    · have hn := Bracket.ofSymbol?_eq_none_iff.2 ⟨ho,hc⟩
      rw [trunk,trunkAfter_zero_symbol hn]
      simpa [trunk,ho] using hw

example : trunk "F[+F]-[G".toList = "F-G".toList := by decide

end Word
end Lindenmayer
