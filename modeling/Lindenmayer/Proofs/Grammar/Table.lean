import Lindenmayer.Grammar.Table
import Mathlib.Data.List.Induction
import Mathlib.Data.List.Nodup
import Mathlib.Data.List.Perm.Basic

/-! Tables made from pairs in any order. A table is known from the pairs in it. Of several pairs for
one symbol the last one counts, so that pairs for different symbols may change places. -/

namespace Lindenmayer

def lastWord? (ps : List (Symbol × Word)) (c : Symbol) : Option Word :=
  (ps.filter (·.1 == c)).getLast?.map Prod.snd

section
variable {ps : List (Symbol × Word)} {p : Symbol × Word} {c : Symbol} {v w : Word}

@[simp] theorem lastWord?_nil (c : Symbol) : lastWord? [] c = none := rfl
@[simp] theorem lastWord?_concat (ps : List (Symbol × Word)) (p : Symbol × Word) (c : Symbol) :
    lastWord? (ps++[p]) c = if p.1 = c then some p.2 else lastWord? ps c := by
  by_cases h : p.1 = c <;> simp [lastWord?,h]

theorem lastWord?_eq_none_iff : lastWord? ps c = none ↔ c ∉ ps.map Prod.fst := by
  have hnone : lastWord? ps c = none ↔ ∀ p ∈ ps, p.1 ≠ c := by simp [lastWord?]
  rw [hnone,List.mem_map,not_exists]
  exact forall_congr' fun p => not_and.symm

theorem mem_of_lastWord? (h : lastWord? ps c = some w) : (c,w) ∈ ps := by
  obtain ⟨p,hlast,rfl⟩ := Option.map_eq_some_iff.1 h
  obtain ⟨hp,hc⟩ := List.mem_filter.1 (List.mem_of_getLast? hlast)
  rwa [← beq_iff_eq.1 hc]

theorem eq_of_ascending (h : ps.Pairwise (·.1 < ·.1)) (hv : (c,v) ∈ ps) (hw : (c,w) ∈ ps) :
    v = w := by
  have hnodup : (ps.map Prod.fst).Nodup :=
    List.pairwise_map.2 (h.imp fun hlt => Std.ne_of_lt hlt)
  simpa using List.inj_on_of_nodup_map hnodup hv hw rfl

theorem lastWord?_eq_some_iff (h : ps.Pairwise (·.1 < ·.1)) :
    lastWord? ps c = some w ↔ (c,w) ∈ ps := by
  refine ⟨mem_of_lastWord?,fun hw => ?_⟩
  cases hlast : lastWord? ps c with
  | none => exact absurd (List.mem_map_of_mem hw) (lastWord?_eq_none_iff.1 hlast)
  | some v => rw [eq_of_ascending h (mem_of_lastWord? hlast) hw]

theorem mem_insertAscending_iff (h : ps.Pairwise (·.1 < ·.1)) :
    p ∈ insertAscending c w ps ↔ p = (c,w) ∨ p.1 ≠ c ∧ p ∈ ps := by
  induction ps with
  | nil => simp [insertAscending]
  | cons q rest ih =>
    obtain ⟨d,v⟩ := q
    obtain ⟨hd,hrest⟩ := List.pairwise_cons.1 h
    have hlater (q) (hq : q ∈ rest) : q.1 ≠ d := (Std.ne_of_lt (hd q hq)).symm
    unfold insertAscending
    split
    case isTrue hlt =>
      have hne (q) (hq : q ∈ (d,v)::rest) : q.1 ≠ c := by
        rcases List.mem_cons.1 hq with rfl | hq
        · exact (Std.ne_of_lt hlt).symm
        · exact (Std.ne_of_lt (Char.lt_trans hlt (hd q hq))).symm
      rw [List.mem_cons]
      exact or_congr_right ⟨fun hp => ⟨hne p hp,hp⟩,And.right⟩
    case isFalse =>
      by_cases he : c = d
      · subst he
        rw [if_pos rfl,List.mem_cons,List.mem_cons]
        refine or_congr_right ⟨fun hp => ⟨hlater p hp,.inr hp⟩,fun hp => ?_⟩
        exact hp.2.resolve_left fun hpc => hp.1 (hpc ▸ rfl)
      · rw [if_neg he,List.mem_cons,List.mem_cons,ih hrest]
        grind

end

namespace RuleTable

theorem ext_of_mem {t u : RuleTable} (h : ∀ p, p ∈ t.pairs ↔ p ∈ u.pairs) : t = u := by
  have hnodup (t : RuleTable) : t.pairs.Nodup :=
    t.ascending.imp fun hlt he => Std.ne_of_lt hlt (congrArg Prod.fst he)
  have hpairs : t.pairs = u.pairs :=
    ((List.perm_ext_iff_of_nodup (hnodup t) (hnodup u)).2 h).eq_of_pairwise
      (fun _ _ _ _ hab hba => absurd (Char.lt_trans hab hba) (Char.lt_irrefl _))
      t.ascending u.ascending
  obtain ⟨_,_⟩ := t
  obtain ⟨_,_⟩ := u
  cases hpairs
  rfl

/-- The table of some pairs, put in one after the other. -/
def ofPairs (ps : List (Symbol × Word)) : RuleTable :=
  ps.foldl (fun t p => t.insert p.1 p.2) .empty

theorem ofPairs_concat (ps : List (Symbol × Word)) (p : Symbol × Word) :
    ofPairs (ps++[p]) = (ofPairs ps).insert p.1 p.2 := List.foldl_concat ..

theorem mem_ofPairs (ps : List (Symbol × Word)) (c : Symbol) (w : Word) :
    (c,w) ∈ (ofPairs ps).pairs ↔ lastWord? ps c = some w := by
  induction ps using List.reverseRecOn with
  | nil => simp [ofPairs]
  | append_singleton ps p ih =>
    rw [ofPairs_concat,pairs_insert,mem_insertAscending_iff (ofPairs ps).ascending,
      lastWord?_concat,ih]
    by_cases h : p.1 = c
    · simp [h,Prod.ext_iff,eq_comm]
    · simp [h,Prod.ext_iff,Ne.symm h]

theorem ofPairs_pairs (t : RuleTable) : ofPairs t.pairs = t :=
  ext_of_mem fun p => (mem_ofPairs t.pairs p.1 p.2).trans (lastWord?_eq_some_iff t.ascending)

theorem lastWord?_pairs_ofPairs (ps : List (Symbol × Word)) (c : Symbol) :
    lastWord? (ofPairs ps).pairs c = lastWord? ps c :=
  Option.ext fun w => (lastWord?_eq_some_iff (ofPairs ps).ascending).trans (mem_ofPairs ps c w)

theorem ofPairs_congr {ps qs : List (Symbol × Word)}
    (h : ∀ c, lastWord? ps c = lastWord? qs c) : ofPairs ps = ofPairs qs :=
  ext_of_mem fun p => by
    rw [mem_ofPairs ps p.1 p.2,mem_ofPairs qs p.1 p.2,h]

theorem mem_inputs_ofPairs (ps : List (Symbol × Word)) (c : Symbol) :
    c ∈ (ofPairs ps).pairs.map Prod.fst ↔ c ∈ ps.map Prod.fst := by
  rw [← not_iff_not,← lastWord?_eq_none_iff,← lastWord?_eq_none_iff,lastWord?_pairs_ofPairs]

theorem inputs_grammar (t : RuleTable) :
    t.grammar.rules.map Rule.input = t.pairs.map Prod.fst := by
  simp [grammar,Function.comp_def]

/-- What a grammar finds first is the only rule there is. -/
theorem replacement_grammar (t : RuleTable) (c : Symbol) :
    t.grammar.replacement c = (lastWord? t.pairs c).getD [c] := by
  unfold Grammar.replacement
  cases hfind : t.grammar.find? c with
  | none =>
    have hnone : c ∉ t.pairs.map Prod.fst := by
      rw [← inputs_grammar,List.mem_map]
      rintro ⟨r,hr,rfl⟩
      exact List.find?_eq_none.1 hfind r hr (Rule.appliesTo_iff.2 rfl)
    rw [lastWord?_eq_none_iff.2 hnone]
    rfl
  | some r =>
    obtain ⟨p,hp,rfl⟩ := List.mem_map.1 (List.mem_of_find?_eq_some hfind)
    obtain rfl : c = p.1 := Rule.appliesTo_iff.1
      (List.find?_some (p := fun r : Rule => r.appliesTo c) hfind)
    rw [(lastWord?_eq_some_iff t.ascending).2 hp]
    rfl

end RuleTable
end Lindenmayer
