import Lindenmayer.Proofs.Bracket.Balanced
import Lindenmayer.Proofs.Figure.Run
import Lindenmayer.Proofs.Grammar.Expansion

/-! Figures that leave a canvas as they found it. It is enough that the brackets match in the start
and in every rule, and that the brackets themselves have no rule: then they match in every
generation, and so nothing is stray among the symbols carried out. -/

namespace Lindenmayer

/-- Rules for symbols other than brackets, in whose outputs the brackets match. -/
def Grammar.KeepsBalance (g : Grammar) : Prop :=
  ∀ r ∈ g.rules, Bracket.ofSymbol? r.input = none ∧ Balanced r.output

namespace Grammar.KeepsBalance
variable {g : Grammar} (hg : g.KeepsBalance)
include hg

theorem replacement_bracket {b : Bracket} : g.replacement b.symbol = [b.symbol] := by
  have hnone : g.find? b.symbol = none := by
    refine List.find?_eq_none.2 fun r hr => ?_
    rw [Rule.appliesTo_iff]
    intro he
    have hh := (hg r hr).1
    rw [← he,Bracket.ofSymbol?_eq_some_iff.2 rfl] at hh
    simp at hh
  simp [replacement,hnone]

theorem replacement_symbol {c : Symbol} (hc : Bracket.ofSymbol? c = none) :
    Balanced (g.replacement c) := by
  unfold replacement
  cases h : g.find? c with
  | none => exact .symbol hc .nil
  | some r => exact (hg r (List.mem_of_find?_eq_some h)).2

theorem derive {w : Word} (hw : Balanced w) : Balanced (g.derive w) :=
  hw.flatMap (fun _ => hg.replacement_symbol) (hg.replacement_bracket (b := .opening))
    (hg.replacement_bracket (b := .closing))

theorem expand {w : Word} (hw : Balanced w) (n : Nat) : Balanced (g.expand w n) :=
  expand_induction (P := Balanced) (fun _ => hg.derive) hw n

end Grammar.KeepsBalance

theorem RuleTable.keepsBalance {t : RuleTable} (hb : ∀ p ∈ t.pairs, p.1 ≠ '[' ∧ p.1 ≠ ']')
    (ho : ∀ p ∈ t.pairs, Balanced p.2) : t.grammar.KeepsBalance := by
  intro r hr
  rw [grammar,Grammar.rules_ofPairs] at hr
  obtain ⟨p,hp,rfl⟩ := List.mem_map.1 hr
  exact ⟨Bracket.ofSymbol?_eq_none_iff.2 (hb p hp),ho p hp⟩

namespace Figure

/-- A frame of a balanced word changes nothing on the canvas but what is drawn, even if it fails. -/
theorem renderOn_of_balanced (f : Figure) (hw : Balanced f.turtle.config.instructions)
    (c : Canvas) :
    (f.renderOn c).2.1.frame = c.frame ∧ (f.renderOn c).2.1.saved = c.saved ∧
      f.trace.count .save = f.trace.count .restore := by
  have hstray : (DrawOp.tally (f.placing ++ f.turtle.config.trace)).stray = 0 := by
    rw [tally_placed]
    exact hw.stray_of_prefix (List.takeWhile_prefix _)
  have hrest := Canvas.drawAll_enclosed_of_stray_zero c hstray
  have hcount := DrawOp.count_enclosed (f.placing ++ f.turtle.config.trace)
  rw [hstray] at hcount
  rw [canvas_renderOn]
  exact ⟨hrest.1,hrest.2,hcount.symm⟩

/-- Let the brackets match in the start and in every output of a configuration, and let no bracket
have a rule. Then they match in every generation, and every frame of the figure, whatever was done
with it before, gives the canvas back with its transform, style and stack, also when it fails. -/
theorem renderOn_restores (cfg : Config) (hstart : Balanced cfg.start)
    (hbrackets : ∀ p ∈ cfg.rules.pairs, p.1 ≠ '[' ∧ p.1 ≠ ']')
    (houtputs : ∀ p ∈ cfg.rules.pairs, Balanced p.2) :
    (∀ n, Balanced ((LSystem.new cfg.start cfg.rules.grammar).generate n).current) ∧
      ∀ (es : List Event) (c : Canvas),
        let frame := ((Figure.new cfg).run es).renderOn c
        (frame.2.2 = .ok () ∨ ∃ bad, frame.2.2 = .error (.invalidAction bad)) ∧
        frame.2.1.transform = c.transform ∧ frame.2.1.style = c.style ∧
        frame.2.1.saved = c.saved ∧
        ∃ ops, frame.2.1.ops.toList = c.ops.toList ++ ops ∧
          ops.count .save = ops.count .restore := by
  have hg := RuleTable.keepsBalance hbrackets houtputs
  have hall (n : Nat) :
      Balanced ((LSystem.new cfg.start cfg.rules.grammar).generate n).current := by
    rw [LSystem.generate_eq]
    exact hg.expand hstart n
  refine ⟨hall,fun es c => ?_⟩
  have hword : Balanced ((Figure.new cfg).run es).turtle.config.instructions := by
    rw [(config_run (Figure.new cfg) es).2]
    exact hall cfg.generations.toNat
  obtain ⟨hframe,hsaved,hcount⟩ := renderOn_of_balanced _ hword c
  refine ⟨?_,congrArg Frame.transform hframe,congrArg Frame.style hframe,hsaved,
    ((Figure.new cfg).run es).trace,?_,hcount⟩
  · rw [result_renderOn]
    cases Turtle.refused? ((Figure.new cfg).run es).turtle.config.instructions with
    | none => exact .inl rfl
    | some bad => exact .inr ⟨bad,rfl⟩
  · rw [canvas_renderOn,Canvas.toList_ops_drawAll]

/-- A plant whose buds are no actions: its frames fail within a branch, and still restore. -/
theorem renderOn_restores_plant :
    let cfg := { Config.initial with
      start := "F[X]".toList, rules := RuleTable.empty.insert 'X' "F[+X]-X".toList }
    (Balanced cfg.start ∧ (∀ p ∈ cfg.rules.pairs, p.1 ≠ '[' ∧ p.1 ≠ ']') ∧
      ∀ p ∈ cfg.rules.pairs, Balanced p.2) ∧
      (((Figure.new cfg).run [.update,.renderOn .empty]).renderOn
        (Canvas.empty.draw .save)).2.1.saved = [.initial] := by
  have hstart : Balanced "F[X]".toList := by decide
  have hbrackets : ∀ p ∈ [('X',"F[+X]-X".toList)], p.1 ≠ '[' ∧ p.1 ≠ ']' := by decide
  have houtputs : ∀ p ∈ [('X',"F[+X]-X".toList)], Balanced p.2 := by decide
  have hh := (renderOn_restores { Config.initial with
    start := "F[X]".toList, rules := RuleTable.empty.insert 'X' "F[+X]-X".toList }
    hstart hbrackets houtputs).2 [.update,.renderOn .empty] (Canvas.empty.draw .save)
  exact ⟨⟨hstart,hbrackets,houtputs⟩,hh.2.2.2.1⟩

end Figure
end Lindenmayer
