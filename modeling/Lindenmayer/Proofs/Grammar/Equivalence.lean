import Lindenmayer.Proofs.LSystem.Parallel
import Mathlib.Data.List.FinRange
import Mathlib.Data.List.Sort

/-! Grammars that cannot be told apart by the words they derive. Only what takes the place of each
symbol counts, so rules that are never reached, rules that change nothing and the order of rules for
different symbols are not seen in any word. -/

namespace Lindenmayer

namespace Rule

theorem apply_eq_ok_iff {r : Rule} {c : Symbol} {w : Word} :
    r.apply c = .ok w ↔ c = r.input ∧ r.output = w := by
  by_cases h : c = r.input
  · simp [apply,h]
  · simp [apply_of_ne h,h]

theorem apply_eq_error_iff {r : Rule} {c : Symbol} : r.apply c = .error ⟨r,c⟩ ↔ c ≠ r.input := by
  by_cases h : c = r.input
  · simp [apply,h]
  · simp [apply_of_ne h,h]

end Rule

namespace Grammar
variable {g h : Grammar} {before after : List Rule} {c : Symbol}

/-! ### One symbol -/

theorem replacement_cases (g : Grammar) (c : Symbol) :
    (∃ before r after, g.rules = before ++ r::after ∧
        (∀ q ∈ before, q.apply c = .error ⟨q,c⟩) ∧ r.apply c = .ok (g.replacement c)) ∨
      (∀ r ∈ g.rules, r.apply c = .error ⟨r,c⟩) ∧ g.replacement c = [c] := by
  unfold replacement
  cases hf : g.find? c with
  | some r =>
    obtain ⟨hr,before,after,hrules,hbefore⟩ := List.find?_eq_some_iff_append.1 hf
    refine .inl ⟨before,r,after,hrules,fun q hq => ?_,?_⟩
    · exact Rule.apply_eq_error_iff.2 (by simpa [Rule.appliesTo] using hbefore q hq)
    · exact Rule.apply_eq_ok_iff.2 ⟨Rule.appliesTo_iff.1 hr,rfl⟩
  | none =>
    refine .inr ⟨fun r hr => ?_,rfl⟩
    have hne := List.find?_eq_none.1 hf r hr
    rw [Rule.appliesTo_iff] at hne
    exact Rule.apply_eq_error_iff.2 hne

theorem replacement_of_find? (hfind : g.find? c = h.find? c) :
    g.replacement c = h.replacement c := by rw [replacement,replacement,hfind]

theorem replacement_shadowed {r : Rule} (hr : ∃ q ∈ before, q.input = r.input) (c : Symbol) :
    (mk (before ++ r::after)).replacement c = (mk (before++after)).replacement c := by
  obtain ⟨q,hq,hinput⟩ := hr
  refine replacement_of_find? ?_
  simp only [find?,List.find?_append]
  by_cases hc : c = r.input
  · have hsome : (before.find? fun q => q.appliesTo c).isSome := by
      rw [List.find?_isSome]
      exact ⟨q,hq,by simp [hc,hinput]⟩
    obtain ⟨p,hp⟩ := Option.isSome_iff_exists.1 hsome
    rw [hp,Option.some_or,Option.some_or]
  · rw [List.find?_cons_of_neg (by simpa using hc)]

theorem replacement_idle {d : Symbol} (hd : ∀ q ∈ before++after, q.input ≠ d) (c : Symbol) :
    (mk (before ++ ⟨d,[d]⟩::after)).replacement c = (mk (before++after)).replacement c := by
  by_cases hc : c = d
  · subst hc
    have hnone : (before++after).find? (fun q => q.appliesTo c) = none :=
      List.find?_eq_none.2 fun q hq => by simpa using (hd q hq).symm
    rw [List.find?_append,Option.or_eq_none_iff] at hnone
    simp [replacement,find?,hnone]
  · refine replacement_of_find? ?_
    simp only [find?,List.find?_append]
    rw [List.find?_cons_of_neg (by simpa using hc)]

theorem replacement_of_filter
    (hrules : g.rules.filter (·.appliesTo c) = h.rules.filter (·.appliesTo c)) :
    g.replacement c = h.replacement c := by
  refine replacement_of_find? ?_
  rw [find?,find?,← List.head?_filter,← List.head?_filter,hrules]

/-- The rules of `g` in another order: at place `i` stands the one that was at place `σ i`. -/
def rearrange (g : Grammar) (σ : Equiv.Perm (Fin g.rules.length)) : Grammar :=
  ⟨(List.finRange _).map fun i => g.rules.get (σ i)⟩

/-- Rules for one symbol that keep their order are the same list after a rearrangement: their old
places ascend, and there is only one list of these that does. -/
theorem filter_rearrange (g : Grammar) {σ : Equiv.Perm (Fin g.rules.length)}
    (hσ : ∀ i j, i < j → (g.rules.get (σ i)).input = (g.rules.get (σ j)).input → σ i < σ j)
    (c : Symbol) :
    (g.rearrange σ).rules.filter (·.appliesTo c) = g.rules.filter (·.appliesTo c) := by
  let mine (i : Fin g.rules.length) : Bool := (g.rules.get i).appliesTo c
  have hplaces : ((List.finRange _).map σ).filter mine = (List.finRange _).filter mine := by
    refine List.Perm.eq_of_pairwise' (r := (· < ·)) ?_ ?_ (σ.map_finRange_perm.filter mine)
    · rw [List.filter_map,List.pairwise_map]
      refine ((List.sortedLT_finRange _).pairwise.filter _).imp_of_mem fun {i j} hi hj hij => ?_
      have hi' : c = (g.rules.get (σ i)).input := Rule.appliesTo_iff.1 (List.mem_filter.1 hi).2
      have hj' : c = (g.rules.get (σ j)).input := Rule.appliesTo_iff.1 (List.mem_filter.1 hj).2
      exact hσ i j hij (hi'.symm.trans hj')
    · exact (List.sortedLT_finRange _).pairwise.filter _
  have hpick (is : List (Fin g.rules.length)) :
      (is.map g.rules.get).filter (·.appliesTo c) = (is.filter mine).map g.rules.get :=
    List.filter_map
  calc (g.rearrange σ).rules.filter (·.appliesTo c)
      = (((List.finRange _).map σ).map g.rules.get).filter (·.appliesTo c) := by
        rw [List.map_map]; rfl
    _ = ((List.finRange _).map g.rules.get).filter (·.appliesTo c) := by
        rw [hpick,hplaces,← hpick]
    _ = g.rules.filter (·.appliesTo c) := by rw [List.map_get_finRange]

/-! ### Whole words -/

theorem derive_eq (g : Grammar) (w : Word) :
    g.derive w = ((LSystem.new w g).generate 1).current := (LSystem.current_step (.new w g)).symm

/-- From every word the two grammars derive the same word in every generation. -/
def SameWords (g h : Grammar) : Prop := ∀ (w : Word) (n : ℕ),
  ((LSystem.new w g).generate n).current = ((LSystem.new w h).generate n).current

theorem sameWords_iff : SameWords g h ↔ ∀ c, g.replacement c = h.replacement c := by
  constructor
  · intro hsame c
    have hone : g.derive [c] = h.derive [c] := by rw [derive_eq,derive_eq,hsame]
    simpa using hone
  · intro hsame w n
    have hderive : g.derive = h.derive := funext fun v => by rw [derive,derive,funext hsame]
    rw [LSystem.current_generate,LSystem.current_generate]
    show g.expand w n = h.expand w n
    induction n with
    | zero => rfl
    | succ n ih => rw [expand_succ,expand_succ,ih,hderive]

theorem render_toJson_inj : g.toJson.render = h.toJson.render ↔ g = h := by
  constructor
  · intro htext
    have hread (g : Grammar) : ofJson.run g.toJson.render = .ok g :=
      (Json.Reader.run_render ofJson g.intact_toJson).trans g.ofJson_toJson
    exact Except.ok.inj ((hread g).symm.trans (htext ▸ hread h))
  · rintro rfl
    rfl

theorem push_ne (g : Grammar) (r : Rule) : g.push r ≠ g := by
  intro he
  have hsize := congrArg size he
  rw [size_push] at hsize
  omega

/-- What takes the place of a symbol is what its first rule that can be applied gives, or the symbol
itself if all fail; it is also what is written after anything, and a generation is all of it written
one after the other. Two grammars derive the same words from each word in every generation iff they
replace every symbol alike. So no word changes when a rule is added below another one for its
symbol, when such a rule is left out, when a symbol without rules gets one that writes it back, or
when rules change places but those for one symbol keep their order. The grammar itself, its size and
its document do change with a rule added. -/
theorem sameWords_of_replacement (g : Grammar) :
    (∀ c, (∃ before r after, g.rules = before ++ r::after ∧
          (∀ q ∈ before, q.apply c = .error ⟨q,c⟩) ∧ r.apply c = .ok (g.replacement c)) ∨
        (∀ r ∈ g.rules, r.apply c = .error ⟨r,c⟩) ∧ g.replacement c = [c]) ∧
    (∀ done c, g.appendTo done c = done ++ g.replacement c) ∧
    (∀ done w, w.foldl g.appendTo done = done ++ ((LSystem.new w g).generate 1).current) ∧
    (∀ h, SameWords g h ↔ ∀ c, g.replacement c = h.replacement c) ∧
    (∀ r, (∃ q ∈ g.rules, q.input = r.input) → SameWords g (g.push r) ∧
      g.push r ≠ g ∧ (g.push r).size = g.size+1 ∧ (g.push r).toJson.render ≠ g.toJson.render) ∧
    (∀ before r after, g.rules = before ++ r::after → (∃ q ∈ before, q.input = r.input) →
      SameWords g ⟨before++after⟩) ∧
    (∀ before c after, g.rules = before++after → (∀ q ∈ g.rules, q.input ≠ c) →
      SameWords g ⟨before ++ ⟨c,[c]⟩::after⟩) ∧
    ∀ σ : Equiv.Perm (Fin g.rules.length),
      (∀ i j, i < j → (g.rules.get (σ i)).input = (g.rules.get (σ j)).input → σ i < σ j) →
      SameWords g (g.rearrange σ) := by
  refine ⟨g.replacement_cases,g.appendTo_eq,
    fun done w => g.derive_eq w ▸ g.foldl_appendTo w done,
    fun h => sameWords_iff,fun r hr => ?_,fun before r after hg hr => ?_,
    fun before c after hg hc => ?_,fun σ hσ => ?_⟩
  · refine ⟨sameWords_iff.2 fun c => ?_,g.push_ne r,g.size_push r,?_⟩
    · have hlast := @replacement_shadowed g.rules [] r hr c
      rw [List.append_nil] at hlast
      exact hlast.symm
    · exact fun htext => g.push_ne r (render_toJson_inj.1 htext)
  · obtain ⟨rules⟩ := g
    obtain rfl : rules = before ++ r::after := hg
    exact sameWords_iff.2 (replacement_shadowed hr)
  · obtain ⟨rules⟩ := g
    obtain rfl : rules = before++after := hg
    exact sameWords_iff.2 fun d => (replacement_idle hc d).symm
  · exact sameWords_iff.2 fun c => replacement_of_filter (g.filter_rearrange hσ c).symm

/-- A second rule for `A` below one for `B`. The two rules for `A` keep their order when the one for
`B` comes first; then the document is another one, and the words are the same. -/
theorem sameWords_of_replacement_second :
    let g := ofPairs [('A',"AB".toList),('B',['A'])]
    let r : Rule := ⟨'A',['x']⟩
    let σ : Equiv.Perm (Fin (g.push r).rules.length) := Equiv.swap ⟨0,by decide⟩ ⟨1,by decide⟩
    ((∃ q ∈ g.rules, q.input = r.input) ∧ (∀ q ∈ g.rules, q.input ≠ 'C') ∧
        ∀ i j, i < j → ((g.push r).rules.get (σ i)).input = ((g.push r).rules.get (σ j)).input →
          σ i < σ j) ∧
      SameWords g (g.push r) ∧ SameWords (g.push r) ⟨g.rules⟩ ∧
      SameWords g ⟨⟨'C',['C']⟩::g.rules⟩ ∧ SameWords (g.push r) ((g.push r).rearrange σ) ∧
      ((g.push r).rearrange σ).rules.map Rule.input = ['B','A','A'] := by
  intro g r σ
  have hr : ∃ q ∈ g.rules, q.input = r.input := ⟨_,.head _,rfl⟩
  have hc : ∀ q ∈ g.rules, q.input ≠ 'C' := by decide
  have hσ : ∀ i j, i < j →
      ((g.push r).rules.get (σ i)).input = ((g.push r).rules.get (σ j)).input → σ i < σ j := by
    decide
  obtain ⟨-,-,-,-,hadd,-,hidle,-⟩ := sameWords_of_replacement g
  obtain ⟨-,-,-,-,-,hdrop,-,hmove⟩ := sameWords_of_replacement (g.push r)
  refine ⟨⟨hr,hc,hσ⟩,(hadd r hr).1,?_,hidle [] 'C' g.rules rfl hc,hmove σ hσ,by decide⟩
  have hlast := hdrop g.rules r [] rfl hr
  rwa [List.append_nil] at hlast

end Grammar
end Lindenmayer
