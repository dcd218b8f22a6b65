import Lindenmayer.Canvas.Scope
import Lindenmayer.Turtle.Action

/-! One pass of the turtle over its instructions. Everything is drawn in the turtle's own frame:
going forward moves the frame, turning turns it. -/

namespace Lindenmayer.Turtle

structure Config where
  instructions : Word
  length : Float32
  leftTurn : Float32
  rightTurn : Float32
  color : Color
  /-- Added to the first channel before every line, if the color changes. -/
  colorChange : Float32
  weight : Float32
  changesColor : Bool
  /-- Whether a mark is drawn where the turtle ends up. -/
  showsHead : Bool
deriving DecidableEq, BEq

/-- A quarter turn. -/
def quarterTurn : Float32 := .ofBits 0x3fc90fdb

def Config.initial : Config where
  instructions := []
  length := 100
  leftTurn := quarterTurn
  rightTurn := quarterTurn
  color := .rgb 0 0 0
  colorChange := 0
  weight := 3
  changesColor := true
  showsHead := false

/-- A pass under way: the scope it draws in and the color of its pen. -/
structure Pass where
  scope : Scope
  color : Color
deriving DecidableEq

namespace Pass

def draw (p : Pass) (op : DrawOp) : Pass := { p with scope := p.scope.draw op }

@[simp] theorem scope_draw (p : Pass) (op : DrawOp) : (p.draw op).scope = p.scope.draw op := rfl
@[simp] theorem color_draw (p : Pass) (op : DrawOp) : (p.draw op).color = p.color := rfl

def start (cfg : Config) (c : Canvas) : Pass := ⟨.enter c,cfg.color⟩

def nextColor (cfg : Config) (c : Color) : Color :=
  if cfg.changesColor then c.advance cfg.colorChange else c

def ahead (cfg : Config) : Vec := ⟨cfg.length,0⟩

def act (cfg : Config) (p : Pass) : Action → Pass
  | .drawForward =>
    let color := nextColor cfg p.color
    (({ p with color := color } : Pass).draw (.strokeColor color) |>.draw (.strokeWeight cfg.weight)
      |>.draw (.line .zero (ahead cfg))).draw (.translate (ahead cfg))
  | .moveForward => p.draw (.translate (ahead cfg))
  | .turnRight => p.draw (.rotate cfg.rightTurn)
  | .turnLeft => p.draw (.rotate (-cfg.leftTurn))
  | .push => { p with scope := p.scope.save }
  | .pop => { p with scope := p.scope.restore }

/-- Follows a word up to its end or to the first symbol that is no action. -/
def follow (cfg : Config) : Word → Pass → Pass × Option Symbol
  | [], p => (p,none)
  | c::w, p =>
    match Action.ofSymbol? c with
    | some a => follow cfg w (p.act cfg a)
    | none => (p,some c)

@[simp] theorem follow_nil (cfg : Config) (p : Pass) : follow cfg [] p = (p,none) := rfl
theorem follow_invalid (cfg : Config) {c : Symbol} (h : Action.ofSymbol? c = none) (w : Word)
    (p : Pass) : follow cfg (c::w) p = (p,some c) := by simp [follow,h]

end Pass

/-- A small red triangle behind the turtle's position, pointing ahead. -/
def drawHead (c : Canvas) : Canvas :=
  (((Scope.enter c).draw .noStroke |>.draw (.fill .red)).draw
    (.triangle .zero ⟨-10,5⟩ ⟨-10,-5⟩)).leave

/-- What a pass leaves behind. -/
structure Outcome where
  canvas : Canvas
  color : Color
  result : Except Failure Unit

/-- Draws the instructions within one scope, left however the pass ends. The symbols before an
invalid one are drawn; the head only if there is none. -/
def Config.render (cfg : Config) (c : Canvas) : Outcome :=
  match (Pass.start cfg c).follow cfg cfg.instructions with
  | (p,some bad) => ⟨p.scope.leave,p.color,.error (.invalidAction bad)⟩
  | (p,none) =>
    let scope :=
      if cfg.showsHead then { p.scope with canvas := drawHead p.scope.canvas } else p.scope
    ⟨scope.leave,p.color,.ok ()⟩

end Lindenmayer.Turtle
