import Lindenmayer.Stored.Basic
import Lindenmayer.Figure.Config

/-! The configuration of a figure in documents. Every field may be left out. -/

namespace Lindenmayer
open Json

def RuleTable.toJson (t : RuleTable) : Json :=
  .object (t.pairs.map fun p => (some [p.1],.text p.2)) none

/-- Of members with the same symbol the last one counts. -/
def RuleTable.readMembers (t : RuleTable) :
    List (Option Word × Json) → Except ReadError RuleTable
  | [] => .ok t
  | (k,v)::rest => do
    let c ← symbolOf (← keyText k)
    readMembers (t.insert c (← v.toWord)) rest

def RuleTable.ofJson : Json.Reader RuleTable
  | .object ms end? => do
    let t ← RuleTable.empty.readMembers ms
    ended end?
    return t
  | v => v.refuse "a map"

namespace Figure.Config

def toJson (c : Config) : Json :=
  .record [("axiom",.text c.start),("rules",c.rules.toJson),
    ("generations",.integer c.generations.toNat),("length",.single c.length),
    ("scale_factor",.single c.scale),("left_angle",.single c.leftTurn),
    ("right_angle",.single c.rightTurn),("color",c.color.toJson),
    ("color_change_rate",.single c.colorChange),("stroke_weight",.single c.weight),
    ("root",c.root.toJson),("rotation",.single c.rotation),("spin",.single c.spin)]

def record : Json.Record Config where
  name := "struct ShapeConfig"
  fields := [
    .optional "axiom" Json.toWord fun x c => { c with start := x },
    .optional "rules" RuleTable.ofJson fun x c => { c with rules := x },
    .optional "generations" (Json.toNatBelow UInt32.size "u32")
      fun x c => { c with generations := .ofNat x },
    .optional "length" Json.toSingle fun x c => { c with length := x },
    .optional "scale_factor" Json.toSingle fun x c => { c with scale := x },
    .optional "left_angle" Json.toSingle fun x c => { c with leftTurn := x },
    .optional "right_angle" Json.toSingle fun x c => { c with rightTurn := x },
    .optional "color" Color.ofJson fun x c => { c with color := x },
    .optional "color_change_rate" Json.toSingle fun x c => { c with colorChange := x },
    .optional "stroke_weight" Json.toSingle fun x c => { c with weight := x },
    .optional "root" Vec.ofJson fun x c => { c with root := x },
    .optional "rotation" Json.toSingle fun x c => { c with rotation := x },
    .optional "spin" Json.toSingle fun x c => { c with spin := x }]
  initial := .initial

def ofJson : Json.Reader Config := record.read

end Figure.Config
end Lindenmayer
