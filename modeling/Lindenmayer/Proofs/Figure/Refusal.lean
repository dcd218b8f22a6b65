import Lindenmayer.Proofs.Figure.History
import Lindenmayer.Proofs.Grammar.Expansion

/-! What a symbol without an action does. It ends the pass, and the pass has then drawn what the
symbols before it draw by themselves, without the head; what comes after it is never seen. -/

namespace Lindenmayer

namespace Turtle

section
variable {p : Word} {x : Symbol}

theorem executed_refused (hp : ∀ a ∈ p, a ∈ alphabet) (hx : x ∉ alphabet) (q : Word) :
    executed (p++x::q) = p := by
  rw [executed,List.takeWhile_append_of_pos fun a ha => decide_eq_true (hp a ha),
    List.takeWhile_cons_of_neg (by simpa using hx),List.append_nil]

theorem refused?_refused (hp : ∀ a ∈ p, a ∈ alphabet) (hx : x ∉ alphabet) (q : Word) :
    refused? (p++x::q) = some x := by
  have hnone : p.find? (· ∉ alphabet) = none := refused?_eq_none_iff.2 hp
  rw [refused?,List.find?_append,hnone,List.find?_cons_of_pos (by simpa using hx)]
  rfl

end

namespace Config

/-- The same configuration for another word, without the head. -/
def upTo (cfg : Config) (p : Word) : Config := { cfg with instructions := p, showsHead := false }

@[simp] theorem opsFrom_upTo (cfg : Config) (p : Word) (k : Color) (w : Word) :
    (cfg.upTo p).opsFrom k w = cfg.opsFrom k w := by
  induction w generalizing k with
  | nil => rfl
  | cons c w ih =>
    rw [opsFrom,ih]
    rfl

/-- A pass that is cut short draws what the symbols before draw, and ends with their color. -/
theorem trace_of_refused {cfg : Config} {p q : Word} {x : Symbol} (hp : ∀ a ∈ p, a ∈ alphabet)
    (hx : x ∉ alphabet) (h : cfg.instructions = p++x::q) : cfg.trace = (cfg.upTo p).trace := by
  have hhead : cfg.head = [] := if_neg fun hh => by simp [h,refused?_refused hp hx] at hh
  have hwhole : executed (cfg.upTo p).instructions = p := executed_of_alphabet hp
  rw [trace,body,hhead,h,executed_refused hp hx,trace,body,hwhole,opsFrom_upTo]
  rfl

theorem result_render_of_refused {cfg : Config} {p q : Word} {x : Symbol}
    (hp : ∀ a ∈ p, a ∈ alphabet) (hx : x ∉ alphabet) (h : cfg.instructions = p++x::q)
    (c : Canvas) : (cfg.render c).result = .error (.invalidAction x) := by
  rw [result_render,h,refused?_refused hp hx]

theorem result_render_ok_iff (cfg : Config) (c : Canvas) :
    (cfg.render c).result = .ok () ↔ ∀ a ∈ cfg.instructions, a ∈ alphabet := by
  rw [result_render,← refused?_eq_none_iff]
  cases refused? cfg.instructions <;> simp

end Config
end Turtle

open Turtle

namespace Figure

/-- The figure `g` has the place and the turtle of `f`, with the instructions `w`. -/
structure Respelled (f g : Figure) (w : Word) : Prop where
  root : g.config.root = f.config.root
  rotation : g.rotation = f.rotation
  turtle : g.turtle.config = { f.turtle.config with instructions := w }

theorem showsHead_run (cfg : Config) (es : List Event) :
    ((new cfg).run es).turtle.config.showsHead = false := by
  rw [(config_run (new cfg) es).2]
  rfl

theorem Respelled.trace_eq {f g : Figure} {p q : Word} {x : Symbol} (hg : Respelled f g p)
    (hp : ∀ a ∈ p, a ∈ alphabet) (hx : x ∉ alphabet) (h : f.turtle.config.instructions = p++x::q)
    (hhead : f.turtle.config.showsHead = false) : f.trace = g.trace := by
  have hturtle : g.turtle.config = f.turtle.config.upTo p := by
    rw [hg.turtle,Config.upTo,← hhead]
  rw [trace,trace,placing,placing,hg.root,hg.rotation,hturtle,Config.trace_of_refused hp hx h]

theorem respelled_new (cfg : Config) (es : List Event) (w : Word) :
    let f := (new cfg).run es
    Respelled f (new { cfg with start := w, rules := .empty, rotation := f.rotation }) w := by
  intro f
  obtain ⟨hconfig,hturtle⟩ := config_run (new cfg) es
  have hroot : f.config.root = cfg.root := congrArg Config.root hconfig
  have hword : ((LSystem.new w RuleTable.empty.grammar).generate cfg.generations.toNat).current
      = w := by
    rw [LSystem.generate_eq]
    exact Grammar.expand_empty w _
  refine ⟨hroot.symm,rfl,?_⟩
  rw [hturtle]
  exact congrArg cfg.turtle hword

end Figure

/-- A pass succeeds iff all symbols are actions. Let `x` be the first one that is not, and `p` the
symbols before it. Then the pass fails at `x`, and leaves the canvas and the color as the pass over
`p` without a head does, which succeeds. The frames of a figure fail at `x` as well and are not
counted. They leave the canvas as the frames of any figure do that has the same root, rotation and
turtle, and the word `p`; there is such a figure. -/
theorem renderOn_refused {p q : Word} {x : Symbol} (hp : ∀ a ∈ p, a ∈ alphabet) (hx : x ∉ alphabet)
    (t : Turtle) (cfg : Figure.Config) (es : List Figure.Event) (c : Canvas) :
    ((t.renderOn c).2.2 = .ok () ↔ ∀ a ∈ t.config.instructions, a ∈ alphabet) ∧
    (t.config.instructions = p++x::q →
      let s := Turtle.new { t.config with instructions := p, showsHead := false }
      (t.renderOn c).2.2 = .error (.invalidAction x) ∧ (s.renderOn c).2.2 = .ok () ∧
        (t.renderOn c).2.1 = (s.renderOn c).2.1 ∧
        (t.renderOn c).1.color = (s.renderOn c).1.color) ∧
    (cfg.system.current = p++x::q →
      let f := (Figure.new cfg).run es
      (f.renderOn c).2.2 = .error (.invalidAction x) ∧ (f.renderOn c).1.time = f.time ∧
        (∀ g, f.Respelled g p →
          (g.renderOn c).2.2 = .ok () ∧ (f.renderOn c).2.1 = (g.renderOn c).2.1) ∧
        f.Respelled (.new { cfg with start := p, rules := .empty, rotation := f.rotation }) p) := by
  refine ⟨Config.result_render_ok_iff t.config c,fun h => ?_,fun h => ?_⟩
  · intro s
    refine ⟨Config.result_render_of_refused hp hx h c,
      (Config.result_render_ok_iff s.config c).2 hp,?_,?_⟩
    · show (t.config.render c).canvas = (s.config.render c).canvas
      rw [Config.canvas_render,Config.canvas_render,Config.trace_of_refused hp hx h]
      rfl
    · show (t.config.render c).color = (s.config.render c).color
      have hs : executed s.config.instructions = p := executed_of_alphabet hp
      rw [Config.color_render,Config.color_render,h,executed_refused hp hx,hs]
      rfl
  · intro f
    have hword : f.turtle.config.instructions = p++x::q := by
      rw [(Figure.config_run (Figure.new cfg) es).2,← h]
      rfl
    have hresult : (f.renderOn c).2.2 = .error (.invalidAction x) :=
      Config.result_render_of_refused hp hx hword _
    refine ⟨hresult,?_,fun g hg => ⟨?_,?_⟩,Figure.respelled_new cfg es p⟩
    · rw [Figure.time_renderOn,hresult]
      rfl
    · refine (Config.result_render_ok_iff g.turtle.config _).2 ?_
      rw [hg.turtle]
      exact hp
    · rw [Figure.canvas_renderOn,Figure.canvas_renderOn,
        hg.trace_eq hp hx hword (Figure.showsHead_run cfg es)]

/-- The symbol `?` is met after a stray bracket and within a branch. Neither the head nor the `F`
after it is drawn. -/
theorem renderOn_refused_branch :
    let p := "F]+[F".toList
    let cfg := { Figure.Config.initial with
      start := ['A'], rules := RuleTable.empty.insert 'A' "F]+[F?F".toList, generations := 1 }
    let t := Turtle.new
      { Config.initial with instructions := "F]+[F?F".toList, showsHead := true }
    let s := Turtle.new { Config.initial with instructions := p }
    let f := (Figure.new cfg).run [.update]
    let g := Figure.new { cfg with start := p, rules := .empty, rotation := f.rotation }
    let c := Canvas.empty.draw .save
    ((∀ a ∈ p, a ∈ alphabet) ∧ '?' ∉ alphabet ∧ t.config.instructions = p++['?','F'] ∧
        cfg.system.current = p++['?','F'] ∧ f.Respelled g p) ∧
      ((t.renderOn c).2.2 = .error (.invalidAction '?') ∧ (t.renderOn c).2.1 = (s.renderOn c).2.1) ∧
      (f.renderOn c).2.2 = .error (.invalidAction '?') ∧
        (f.renderOn c).2.1 = (g.renderOn c).2.1 := by
  intro p cfg t s f g c
  have hp : ∀ a ∈ p, a ∈ alphabet := refused?_eq_none_iff.1 (show refused? p = none by decide)
  have hx : '?' ∉ alphabet := by decide
  have ht : t.config.instructions = p++ '?'::['F'] := rfl
  have hf : cfg.system.current = p++ '?'::['F'] := by decide
  obtain ⟨-,hturtle,hfigure⟩ := renderOn_refused hp hx t cfg [.update] c
  obtain ⟨hfails,-,hleaves,-⟩ := hturtle ht
  obtain ⟨hfails',-,hleaves',hg⟩ := hfigure hf
  exact ⟨⟨hp,hx,ht,hf,hg⟩,⟨hfails,hleaves⟩,hfails',(hleaves' g hg).2⟩

end Lindenmayer
