import Lindenmayer.Grammar.Table
import Lindenmayer.Color
import Lindenmayer.Plane.Affine

/-! What a figure is made from. The one that is given first is a snowflake. -/

namespace Lindenmayer.Figure

structure Config where
  start : Word
  rules : RuleTable
  generations : UInt32
  /-- Length of a line before scaling. -/
  length : Float32
  /-- Applied to the length once for each generation. -/
  scale : Float32
  leftTurn : Float32
  rightTurn : Float32
  color : Color
  colorChange : Float32
  weight : Float32
  /-- Where the turtle starts. -/
  root : Vec
  /-- How far the whole figure is turned at first. -/
  rotation : Float32
  /-- How far it is turned further by each update. -/
  spin : Float32
deriving DecidableEq, BEq

namespace Config

/-- A third of a half turn. -/
def sixthTurn : Float32 := .ofBits 0x3f860a92

def initial : Config where
  start := "F--F--F".toList
  rules := RuleTable.empty.insert 'F' "F+F--F+F".toList
  generations := 3
  length := 200
  scale := 0.5
  leftTurn := sixthTurn
  rightTurn := sixthTurn
  color := .gray 0
  colorChange := 0.05
  weight := 1
  root := .zero
  rotation := 0
  spin := 0.01

/-- Length of a line after all generations. -/
def scaledLength (cfg : Config) : Float32 :=
  cfg.length*Scalar.power cfg.scale cfg.generations.toFloat32

end Config
end Lindenmayer.Figure
