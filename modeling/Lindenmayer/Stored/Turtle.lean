import Lindenmayer.Stored.Basic
import Lindenmayer.Turtle.Pass

/-! The configuration of a turtle in documents. Every field may be left out. -/

namespace Lindenmayer.Turtle.Config
open Json

def toJson (c : Config) : Json :=
  .record [("instructions",.text c.instructions),("length",.single c.length),
    ("left_turn_angle",.single c.leftTurn),("right_turn_angle",.single c.rightTurn),
    ("color",c.color.toJson),("color_change_rate",.single c.colorChange),
    ("stroke_weight",.single c.weight),("rotate_color",.bool c.changesColor),
    ("show_head",.bool c.showsHead)]

def record : Json.Record Config where
  name := "struct TurtleConfig"
  fields := [
    .optional "instructions" Json.toWord fun x c => { c with instructions := x },
    .optional "length" Json.toSingle fun x c => { c with length := x },
    .optional "left_turn_angle" Json.toSingle fun x c => { c with leftTurn := x },
    .optional "right_turn_angle" Json.toSingle fun x c => { c with rightTurn := x },
    .optional "color" Color.ofJson fun x c => { c with color := x },
    .optional "color_change_rate" Json.toSingle fun x c => { c with colorChange := x },
    .optional "stroke_weight" Json.toSingle fun x c => { c with weight := x },
    .optional "rotate_color" Json.toBool fun x c => { c with changesColor := x },
    .optional "show_head" Json.toBool fun x c => { c with showsHead := x }]
  initial := .initial

def ofJson : Json.Reader Config := record.read

end Lindenmayer.Turtle.Config
