import Lindenmayer.Json.Record
import Lindenmayer.Color
import Lindenmayer.Plane.Affine

/-! Colors and points in documents: bare lists of numbers. -/

namespace Lindenmayer
open Json

def Color.toJson (c : Color) : Json := .array (c.channels.map Json.single)
def Color.ofJson : Json.Reader Color := fun v => (v.toList Json.toSingle).map Color.mk

def Vec.toJson (v : Vec) : Json := .array [.single v.x,.single v.y]

/-- A list of two numbers, neither fewer nor more. -/
def Vec.ofJson : Json.Reader Vec
  | .list vs end? => do
    let wanted := "a sequence of 2 f32 values"
    match vs with
    | [] =>
      ended end?
      throw (.fault (.invalidLength 0 wanted))
    | [a] =>
      let _ ← a.toSingle
      ended end?
      throw (.fault (.invalidLength 1 wanted))
    | a::b::rest =>
      let x ← a.toSingle
      let y ← b.toSingle
      if rest.isEmpty then ended end? else malformed
      return ⟨x,y⟩
  | v => v.refuse "a sequence of 2 f32 values"

end Lindenmayer
