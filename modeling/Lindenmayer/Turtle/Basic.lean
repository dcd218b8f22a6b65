import Lindenmayer.Turtle.Pass

/-! The turtle: its configuration, the color its pen has now, and possibly a canvas of its own. -/

namespace Lindenmayer

structure Turtle where
  config : Turtle.Config
  /-- As the last pass left it. -/
  color : Color
  canvas : Option Canvas
deriving DecidableEq

namespace Turtle

def new (cfg : Config) : Turtle := ⟨cfg,cfg.color,none⟩

def setCanvas (t : Turtle) (c : Canvas) : Turtle := { t with canvas := some c }
def takeCanvas (t : Turtle) : Turtle × Option Canvas := ({ t with canvas := none },t.canvas)

def setInstructions (t : Turtle) (w : Word) : Turtle :=
  { t with config := { t.config with instructions := w } }
def setLength (t : Turtle) (l : Float32) : Turtle :=
  { t with config := { t.config with length := l } }
def scaleLength (t : Turtle) (factor : Float32) : Turtle := t.setLength (t.config.length*factor)
def setLeftTurn (t : Turtle) (a : Float32) : Turtle :=
  { t with config := { t.config with leftTurn := a } }
def setRightTurn (t : Turtle) (a : Float32) : Turtle :=
  { t with config := { t.config with rightTurn := a } }
def setTurns (t : Turtle) (a : Float32) : Turtle := (t.setLeftTurn a).setRightTurn a

/-- Draws on a canvas that is not the turtle's own. -/
def renderOn (t : Turtle) (c : Canvas) : Turtle × Canvas × Except Failure Unit :=
  let o := t.config.render c
  ({ t with color := o.color },o.canvas,o.result)

/-- Draws on the turtle's own canvas. -/
def render (t : Turtle) : Turtle × Except Failure Unit :=
  match t.takeCanvas with
  | (t,none) => (t,.error .noCanvas)
  | (t,some c) =>
    let (t,c,result) := t.renderOn c
    (t.setCanvas c,result)

end Turtle
end Lindenmayer
