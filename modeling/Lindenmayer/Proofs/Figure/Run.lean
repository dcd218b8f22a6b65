import Lindenmayer.Figure.Basic
import Lindenmayer.Proofs.Turtle.Trace

/-! Figures in use. Whatever is done with a figure, it keeps its configuration and its word, and
what a frame draws is decided by these and by how far the figure is turned. -/

namespace Lindenmayer.Figure

inductive Event
  | update
  | render
  | renderOn (c : Canvas)
  | setCanvas (c : Canvas)
  | takeCanvas
deriving DecidableEq

def handle (f : Figure) : Event → Figure
  | .update => f.update
  | .render => f.render.1
  | .renderOn c => (f.renderOn c).1
  | .setCanvas c => f.setCanvas c
  | .takeCanvas => { f with turtle := f.turtle.takeCanvas.1 }

def run (f : Figure) (es : List Event) : Figure := es.foldl handle f

@[simp] theorem run_nil (f : Figure) : f.run [] = f := rfl
@[simp] theorem run_cons (f : Figure) (e : Event) (es : List Event) :
    f.run (e::es) = (f.handle e).run es := rfl

theorem render_of_none (f : Figure) (h : f.turtle.canvas = none) :
    f.render = (f,.error .noCanvas) := by
  obtain ⟨cfg,system,⟨tcfg,color,canvas⟩,rotation,time⟩ := f
  obtain rfl : canvas = none := h
  rfl

theorem render_of_some (f : Figure) {c : Canvas} (h : f.turtle.canvas = some c) :
    f.render = ((f.renderOn c).1.setCanvas (f.renderOn c).2.1,(f.renderOn c).2.2) := by
  simp only [render,Turtle.takeCanvas,h]
  rfl

theorem config_handle (f : Figure) (e : Event) :
    (f.handle e).config = f.config ∧ (f.handle e).turtle.config = f.turtle.config := by
  cases e with
  | render =>
    rw [handle]
    cases h : f.turtle.canvas with
    | none => rw [render_of_none f h]; exact ⟨rfl,rfl⟩
    | some c => rw [render_of_some f h]; exact ⟨rfl,rfl⟩
  | _ => exact ⟨rfl,rfl⟩

theorem config_run (f : Figure) (es : List Event) :
    (f.run es).config = f.config ∧ (f.run es).turtle.config = f.turtle.config := by
  induction es generalizing f with
  | nil => exact ⟨rfl,rfl⟩
  | cons e es ih =>
    obtain ⟨h₁,h₂⟩ := ih (f.handle e)
    obtain ⟨h₃,h₄⟩ := config_handle f e
    exact ⟨h₁.trans h₃,h₂.trans h₄⟩

/-- How a frame brings the turtle into its place. -/
def placing (f : Figure) : List DrawOp :=
  [.strokeColor frameColor,.translate f.config.root,.rotate f.rotation]

def trace (f : Figure) : List DrawOp := DrawOp.enclosed (f.placing ++ f.turtle.config.trace)

theorem tally_placed (f : Figure) : DrawOp.tally (f.placing ++ f.turtle.config.trace) =
    ⟨(Word.tally (Turtle.executed f.turtle.config.instructions)).stray,0⟩ := by
  rw [DrawOp.tally_append]
  change DrawOp.tally f.turtle.config.trace = _
  rw [Turtle.Config.trace,DrawOp.tally_enclosed,Turtle.Config.tally_body]

theorem canvas_renderOn (f : Figure) (c : Canvas) : (f.renderOn c).2.1 = c.drawAll f.trace := by
  have hturtle : (f.renderOn c).2.1 =
      ((f.turtle.config.render (f.place c).canvas).canvas).draw .restore := rfl
  rw [hturtle,Turtle.Config.canvas_render,trace,DrawOp.enclosed,tally_placed]
  simp [place,placing]

theorem result_renderOn (f : Figure) (c : Canvas) :
    (f.renderOn c).2.2 = match Turtle.refused? f.turtle.config.instructions with
      | some bad => .error (.invalidAction bad)
      | none => .ok () :=
  Turtle.Config.result_render f.turtle.config _

end Lindenmayer.Figure
