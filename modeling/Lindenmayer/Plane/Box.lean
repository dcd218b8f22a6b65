import Lindenmayer.Plane.Affine

/-! Upright boxes around points. Where two numbers do not compare, and where they are equal, the
newer one is kept. -/

namespace Lindenmayer

def Scalar.lesser (a b : Float32) : Float32 := if a < b then a else b
def Scalar.greater (a b : Float32) : Float32 := if b < a then a else b

structure Box where
  min : Vec
  max : Vec
deriving DecidableEq

namespace Box

def ofPoint (v : Vec) : Box := ⟨v,v⟩

def add (b : Box) (v : Vec) : Box where
  min := ⟨Scalar.lesser b.min.x v.x,Scalar.lesser b.min.y v.y⟩
  max := ⟨Scalar.greater b.max.x v.x,Scalar.greater b.max.y v.y⟩

end Box
end Lindenmayer
