import Lindenmayer.Proofs.Canvas.Repetition
import Lindenmayer.Proofs.Figure.Run

/-! Renders without a memory. What a render draws and answers is decided by the configuration and the
canvas, so a render repeated draws the same again, and the same picture if it has left the canvas in
the frame in which it found it. -/

namespace Lindenmayer

namespace Turtle

theorem renderOn_congr {t s : Turtle} (h : t.config = s.config) (c : Canvas) :
    (t.renderOn c).2 = (s.renderOn c).2 ∧ (t.renderOn c).1.color = (s.renderOn c).1.color := by
  simp only [renderOn,h,and_self]

theorem canvas_renderOn (t : Turtle) (c : Canvas) :
    (t.renderOn c).2.1 = c.drawAll t.config.trace := t.config.canvas_render c

theorem render_setCanvas (t : Turtle) (c : Canvas) :
    (t.setCanvas c).render = ((t.renderOn c).1.setCanvas (t.renderOn c).2.1,(t.renderOn c).2.2) :=
  rfl

theorem blank_trace (cfg : Config) (c : Canvas)
    (h : ∀ q, q <+: executed cfg.instructions → q.count ']' ≤ q.count '[') :
    (c.drawAll cfg.trace).blank = c.blank := by
  refine Canvas.blank_drawAll_enclosed c ?_
  rw [Config.tally_body]
  exact (Word.stray_tally_zero_iff _).2 h

end Turtle

namespace Figure

theorem renderOn_congr {f g : Figure} (hconfig : f.config = g.config)
    (hturtle : f.turtle.config = g.turtle.config) (hrotation : f.rotation = g.rotation)
    (c : Canvas) : (f.renderOn c).2 = (g.renderOn c).2 ∧
      (f.renderOn c).1.turtle.color = (g.renderOn c).1.turtle.color := by
  have hplace : f.place c = g.place c := by simp only [place,hconfig,hrotation]
  obtain ⟨hdrawn,hcolor⟩ := Turtle.renderOn_congr hturtle (g.place c).canvas
  simp only [renderOn,hplace,hdrawn,hcolor,and_self]

theorem render_setCanvas (f : Figure) (c : Canvas) :
    (f.setCanvas c).render = ((f.renderOn c).1.setCanvas (f.renderOn c).2.1,(f.renderOn c).2.2) :=
  rfl

theorem settings_renderOn (f : Figure) (c : Canvas) :
    (f.renderOn c).1.config = f.config ∧ (f.renderOn c).1.turtle.config = f.turtle.config ∧
      (f.renderOn c).1.rotation = f.rotation := ⟨rfl,rfl,rfl⟩

theorem trace_renderOn (f : Figure) (c : Canvas) : (f.renderOn c).1.trace = f.trace := by
  obtain ⟨hconfig,hturtle,hrotation⟩ := f.settings_renderOn c
  simp only [trace,placing,hconfig,hturtle,hrotation]

theorem blank_trace (f : Figure) (c : Canvas)
    (h : ∀ q, q <+: Turtle.executed f.turtle.config.instructions → q.count ']' ≤ q.count '[') :
    (c.drawAll f.trace).blank = c.blank := by
  refine Canvas.blank_drawAll_enclosed c ?_
  rw [tally_placed]
  exact (Word.stray_tally_zero_iff _).2 h

end Figure

open Turtle

/-- Two turtles of one configuration, whatever each did before, answer a render in the same way, leave
a canvas the same and are left with the same color. A render on the turtle's own canvas is a render
onto that canvas, owned again after it, and so for any number of them. Renders in a row record the
same operations each; where no beginning of what is carried out closes more brackets than it opens,
they draw the same lines and triangles each. All this holds of figures as well, while they are not
turned. -/
theorem renders_repeat (t : Turtle) (f : Figure) (c : Canvas) :
    ((∀ s : Turtle, s.config = t.config →
        (s.renderOn c).2 = (t.renderOn c).2 ∧ (s.renderOn c).1.color = (t.renderOn c).1.color) ∧
      (t.setCanvas c).render =
        ((t.renderOn c).1.setCanvas (t.renderOn c).2.1,(t.renderOn c).2.2) ∧
      (∀ n, (fun s => s.render.1)^[n] (t.setCanvas c) =
        (renderRow Turtle.renderOn n t c).1.setCanvas (renderRow Turtle.renderOn n t c).2) ∧
      AppendsCopies Turtle.renderOn t c (·.ops.toList) ∧
      ((∀ q, q <+: executed t.config.instructions → q.count ']' ≤ q.count '[') →
        AppendsCopies Turtle.renderOn t c (·.segments.toList) ∧
        AppendsCopies Turtle.renderOn t c (·.triangles.toList))) ∧
    ((∀ g : Figure, g.config = f.config → g.turtle.config = f.turtle.config →
        g.rotation = f.rotation → (g.renderOn c).2 = (f.renderOn c).2 ∧
          (g.renderOn c).1.turtle.color = (f.renderOn c).1.turtle.color) ∧
      (f.setCanvas c).render =
        ((f.renderOn c).1.setCanvas (f.renderOn c).2.1,(f.renderOn c).2.2) ∧
      (∀ n, (fun g => g.render.1)^[n] (f.setCanvas c) =
        (renderRow Figure.renderOn n f c).1.setCanvas (renderRow Figure.renderOn n f c).2) ∧
      AppendsCopies Figure.renderOn f c (·.ops.toList) ∧
      ((∀ q, q <+: executed f.turtle.config.instructions → q.count ']' ≤ q.count '[') →
        AppendsCopies Figure.renderOn f c (·.segments.toList) ∧
        AppendsCopies Figure.renderOn f c (·.triangles.toList))) := by
  refine ⟨⟨fun s hs => Turtle.renderOn_congr hs c,t.render_setCanvas c,fun n => ?_,?_,fun h => ?_⟩,
    ⟨fun g hc ht hr => Figure.renderOn_congr hc ht hr c,f.render_setCanvas c,fun n => ?_,?_,
      fun h => ?_⟩⟩
  · exact iterate_render (fun s b => congrArg Prod.fst (s.render_setCanvas b)) n t c
  · exact appendsCopies_ops Turtle.canvas_renderOn (fun _ _ => rfl) t c
  · exact appendsCopies_of_restored Turtle.canvas_renderOn (fun _ _ => rfl)
      (blank_trace t.config c h)
  · exact iterate_render (fun g b => congrArg Prod.fst (g.render_setCanvas b)) n f c
  · exact appendsCopies_ops Figure.canvas_renderOn Figure.trace_renderOn f c
  · exact appendsCopies_of_restored Figure.canvas_renderOn Figure.trace_renderOn
      (Figure.blank_trace f c h)

/-- Both fail within a branch, and have failed before: still nothing of an earlier render is left. -/
theorem renders_repeat_failing :
    let t := Turtle.new { Config.initial with instructions := "F[+FX".toList }
    let s := (t.renderOn .empty).1.setCanvas .empty
    let f := Figure.new { Figure.Config.initial with start := "F[+FX".toList, rules := .empty }
    let g := (f.renderOn .empty).1
    let c := Canvas.empty.draw (.translate ⟨1,0⟩)
    ((s.config = t.config ∧
        ∀ q, q <+: executed t.config.instructions → q.count ']' ≤ q.count '[') ∧
      (g.config = f.config ∧ g.turtle.config = f.turtle.config ∧ g.rotation = f.rotation ∧
        ∀ q, q <+: executed f.turtle.config.instructions → q.count ']' ≤ q.count '[')) ∧
      ((s.renderOn c).2 = (t.renderOn c).2 ∧
        AppendsCopies Turtle.renderOn t c (·.segments.toList)) ∧
      (g.renderOn c).2 = (f.renderOn c).2 ∧
        AppendsCopies Figure.renderOn f c (·.triangles.toList) := by
  intro t s f g c
  have hpaired : ∀ q, q <+: executed "F[+FX".toList → q.count ']' ≤ q.count '[' :=
    (Word.stray_tally_zero_iff _).1 (by decide)
  have hword : f.turtle.config.instructions = "F[+FX".toList := rfl
  have hfigure : ∀ q, q <+: executed f.turtle.config.instructions →
      q.count ']' ≤ q.count '[' := by rwa [hword]
  have hused : s.config = t.config := rfl
  obtain ⟨hconfig,hturtles,hrotation⟩ := f.settings_renderOn .empty
  obtain ⟨⟨hturtle,-,-,-,hlines⟩,⟨hplaced,-,-,-,hmarks⟩⟩ := renders_repeat t f c
  exact ⟨⟨⟨hused,hpaired⟩,hconfig,hturtles,hrotation,hfigure⟩,
    ⟨(hturtle s hused).1,(hlines hpaired).1⟩,(hplaced g hconfig hturtles hrotation).1,
    (hmarks hfigure).2⟩

end Lindenmayer
