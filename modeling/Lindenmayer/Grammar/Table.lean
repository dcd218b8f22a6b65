import Lindenmayer.Grammar.Basic

/-! Tables of rules: at most one word for each symbol, in ascending order of the symbols. -/

namespace Lindenmayer

/-- Puts a pair into its place; the pair there with the same symbol gives way. -/
def insertAscending (c : Symbol) (w : Word) : List (Symbol × Word) → List (Symbol × Word)
  | [] => [(c,w)]
  | (d,v)::rest =>
    if c < d then (c,w)::(d,v)::rest
    else if c = d then (c,w)::rest
    else (d,v)::insertAscending c w rest

theorem mem_insertAscending {c : Symbol} {w : Word} {ps : List (Symbol × Word)}
    {p : Symbol × Word} (h : p ∈ insertAscending c w ps) : p = (c,w) ∨ p ∈ ps := by
  induction ps with
  | nil => simpa [insertAscending] using h
  | cons q rest ih =>
    obtain ⟨d,v⟩ := q
    unfold insertAscending at h
    split at h
    · simpa using h
    · split at h
      · rcases List.mem_cons.1 h with h | h
        · exact .inl h
        · exact .inr (.tail _ h)
      · rcases List.mem_cons.1 h with h | h
        · exact .inr (h ▸ .head _)
        · exact (ih h).imp_right (.tail _)

theorem pairwise_insertAscending (c : Symbol) (w : Word) {ps : List (Symbol × Word)}
    (h : ps.Pairwise (·.1 < ·.1)) : (insertAscending c w ps).Pairwise (·.1 < ·.1) := by
  induction ps with
  | nil => simp [insertAscending]
  | cons q rest ih =>
    obtain ⟨d,v⟩ := q
    obtain ⟨hd,hr⟩ := List.pairwise_cons.1 h
    unfold insertAscending
    split
    · rename_i hc
      refine .cons (fun p hp => ?_) h
      rcases List.mem_cons.1 hp with rfl | hp
      · exact hc
      · exact Char.lt_trans hc (hd p hp)
    · split
      · rename_i he
        exact .cons (he ▸ hd) hr
      · rename_i hc he
        refine .cons (fun p hp => ?_) (ih hr)
        rcases mem_insertAscending hp with rfl | hp
        · exact Std.lt_of_le_of_ne (Char.not_lt.1 hc) (Ne.symm he)
        · exact hd p hp

structure RuleTable where
  pairs : List (Symbol × Word)
  ascending : pairs.Pairwise (·.1 < ·.1)
deriving DecidableEq

namespace RuleTable

def empty : RuleTable := ⟨[],.nil⟩

def insert (t : RuleTable) (c : Symbol) (w : Word) : RuleTable :=
  ⟨insertAscending c w t.pairs,pairwise_insertAscending c w t.ascending⟩

@[simp] theorem pairs_empty : empty.pairs = [] := rfl
@[simp] theorem pairs_insert (t : RuleTable) (c : Symbol) (w : Word) :
    (t.insert c w).pairs = insertAscending c w t.pairs := rfl

def grammar (t : RuleTable) : Grammar := .ofPairs t.pairs

end RuleTable
end Lindenmayer
