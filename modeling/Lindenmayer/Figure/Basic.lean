import Lindenmayer.Figure.Config
import Lindenmayer.LSystem
import Lindenmayer.Turtle.Basic

/-! Figures: a system expanded once and a turtle that follows its word, placed at a root, turned
further from frame to frame. -/

namespace Lindenmayer

structure Figure where
  config : Figure.Config
  system : LSystem
  turtle : Turtle
  rotation : Float32
  /-- Renders that succeeded. -/
  time : Nat
deriving DecidableEq

namespace Figure

def Config.system (cfg : Config) : LSystem :=
  (LSystem.new cfg.start cfg.rules.grammar).generate cfg.generations.toNat

/-- How the turtle follows the word of the figure. -/
def Config.turtle (cfg : Config) (word : Word) : Turtle.Config :=
  { Turtle.Config.initial with
    instructions := word
    length := cfg.scaledLength
    leftTurn := cfg.leftTurn
    rightTurn := cfg.rightTurn
    color := cfg.color
    colorChange := cfg.colorChange
    weight := cfg.weight }

def new (cfg : Config) : Figure where
  config := cfg
  system := cfg.system
  turtle := .new (cfg.turtle cfg.system.current)
  rotation := cfg.rotation
  time := 0

def setCanvas (f : Figure) (c : Canvas) : Figure := { f with turtle := f.turtle.setCanvas c }

def update (f : Figure) : Figure := { f with rotation := f.rotation+f.config.spin }

/-- The color that a frame starts with. -/
def frameColor : Color := .gray 200

/-- Opens the scope in which the turtle draws: placed at the root, turned as far as the figure. -/
def place (f : Figure) (c : Canvas) : Scope :=
  ((Scope.enter c).draw (.strokeColor frameColor) |>.draw (.translate f.config.root)).draw
    (.rotate f.rotation)

def renderOn (f : Figure) (c : Canvas) : Figure × Canvas × Except Turtle.Failure Unit :=
  let scope := f.place c
  let (turtle,canvas,result) := f.turtle.renderOn scope.canvas
  let time := match result with
    | .ok _ => f.time+1
    | .error _ => f.time
  ({ f with turtle := turtle, time := time },{ scope with canvas := canvas }.leave,result)

def render (f : Figure) : Figure × Except Turtle.Failure Unit :=
  match f.turtle.takeCanvas with
  | (turtle,none) => ({ f with turtle := turtle },.error .noCanvas)
  | (turtle,some c) =>
    let (f,c,result) := { f with turtle := turtle }.renderOn c
    (f.setCanvas c,result)

end Figure
end Lindenmayer
