import Lindenmayer.Proofs.Figure.History
import Lindenmayer.Proofs.Figure.Placement
import Lindenmayer.Proofs.Grammar.Growth

/-! How much a figure draws. Its word grows by the matrix of its rules, whatever the order of the
symbols that it starts with, and each frame draws a line for each `F` in the word. -/

namespace Lindenmayer

open Turtle

namespace Figure

theorem instructions_run (cfg : Config) (es : List Event) :
    ((new cfg).run es).turtle.config.instructions = cfg.system.current := by
  rw [(config_run (new cfg) es).2]
  rfl

end Figure

section
attribute [local instance] fintypeSymbol

/-- In generation `n` a symbol stands as often as the starting word and the `n`-th power of the
matrix of the rules say, so that the order of the starting word does not matter. Where a figure's
word has none but the symbols of actions, every frame, on the figure's own canvas or on another one,
succeeds, and draws as many lines as there are to be `F` in the word; the turtle is moved on as
often as there are to be `F` or `G`. -/
theorem growth_of_words (w : Word) (g : Grammar) (cfg : Figure.Config) :
    (∀ (n : ℕ) (c : Symbol),
      ((LSystem.new w g).generate n).current.count c = ∑ d, w.count d*(g.growth^n) d c) ∧
    (∀ v : Word, v.Perm w → ∀ (n : ℕ) (c : Symbol),
      ((LSystem.new v g).generate n).current.count c =
        ((LSystem.new w g).generate n).current.count c) ∧
    ((∀ x ∈ cfg.system.current, x ∈ alphabet) →
      ∀ (es : List Figure.Event) (c : Canvas),
      let f := (Figure.new cfg).run es
      let after := (f.renderOn c).2.1
      let total (x : Symbol) :=
        ∑ d, cfg.start.count d*(cfg.rules.grammar.growth^cfg.generations.toNat) d x
      (f.renderOn c).2.2 = .ok () ∧
      (∃ drawn, after.segments.toList = c.segments.toList ++ drawn ∧ drawn.length = total 'F') ∧
      (∃ calls, after.ops.toList = c.ops.toList ++ ([.save,.strokeColor Figure.frameColor,
          .translate cfg.root,.rotate f.rotation] ++ calls ++ [.restore]) ∧
        calls.countP DrawOp.isTranslate = total 'F'+total 'G') ∧
      (f.turtle.canvas = some c →
        f.render.2 = .ok () ∧ f.render.1.turtle.canvas = some after)) := by
  refine ⟨LSystem.count_generate w g,fun v hv n c => ?_,fun halphabet es c => ?_⟩
  · rw [LSystem.count_generate,LSystem.count_generate]
    exact Finset.sum_congr rfl fun d _ => by rw [hv.count_eq]
  · intro f after total
    have hword : f.turtle.config.instructions = cfg.system.current :=
      Figure.instructions_run cfg es
    have htotal (x : Symbol) : (executed f.turtle.config.instructions).count x = total x := by
      rw [hword,executed_of_alphabet halphabet]
      exact LSystem.count_generate cfg.start cfg.rules.grammar cfg.generations.toNat x
    have hroot : f.config.root = cfg.root :=
      congrArg Figure.Config.root (Figure.config_run (Figure.new cfg) es).1
    have hok : (f.renderOn c).2.2 = .ok () := by
      rw [Figure.result_renderOn,hword,refused?_eq_none_iff.2 halphabet]
    refine ⟨hok,?_,⟨f.turtle.config.trace,?_,?_⟩,fun hcanvas => ?_⟩
    · obtain ⟨drawn,hdrawn,hlength⟩ :=
        Canvas.segments_drawAll (f.place c).canvas f.turtle.config.trace
      refine ⟨drawn,?_,?_⟩
      · rw [Figure.segments_renderOn,Config.canvas_render,hdrawn]
        rfl
      · rw [hlength,Config.countP_trace rfl rfl rfl,Config.countP_isLine_opsFrom,htotal]
    · rw [← hroot,← Figure.trace_eq]
      exact Figure.toList_ops_renderOn f c
    · rw [Config.countP_trace rfl rfl rfl,Config.countP_isTranslate_opsFrom,htotal,htotal]
    · rw [Figure.render_of_some f hcanvas]
      exact ⟨hok,rfl⟩

end

/-- A bush with a bud that is erased. Its second generation has four `F`, as it has where the bud
comes first. -/
theorem growth_of_words_bush :
    let cfg := { Figure.Config.initial with
      start := ['F','X'], generations := 2,
      rules := (RuleTable.empty.insert 'F' "F[+F]G".toList).insert 'X' [] }
    let f := (Figure.new cfg).run [.update,.setCanvas .empty]
    (['X','F'].Perm cfg.start ∧ (∀ x ∈ cfg.system.current, x ∈ alphabet) ∧
        f.turtle.canvas = some .empty) ∧
      ∃ d, f.render.1.turtle.canvas = some d ∧ d.segments.toList.length = 4 ∧
        ((LSystem.new ['X','F'] cfg.rules.grammar).generate 2).current.count 'F' = 4 := by
  intro cfg f
  have hperm : ['X','F'].Perm cfg.start := List.Perm.swap _ _ _
  have hall : cfg.system.current.all (fun x => decide (x ∈ alphabet)) = true := by decide
  have halphabet : ∀ x ∈ cfg.system.current, x ∈ alphabet := fun x hx =>
    of_decide_eq_true (List.all_eq_true.1 hall x hx)
  have hcanvas : f.turtle.canvas = some .empty := rfl
  obtain ⟨hcount,hswap,hframes⟩ := growth_of_words cfg.start cfg.rules.grammar cfg
  obtain ⟨-,⟨drawn,hdrawn,hlength⟩,-,hown⟩ :=
    hframes halphabet [.update,.setCanvas .empty] .empty
  have hlines : cfg.system.current.count 'F' = 4 := by decide
  have htotal := (hcount cfg.generations.toNat 'F').symm.trans hlines
  refine ⟨⟨hperm,halphabet,hcanvas⟩,_,(hown hcanvas).2,?_,(hswap _ hperm 2 'F').trans hlines⟩
  rw [hdrawn,List.length_append,hlength]
  exact (Nat.zero_add _).trans htotal

end Lindenmayer
