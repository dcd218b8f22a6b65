import Lindenmayer.Scalar.Elementary

/-! The plane in single precision: points and affine maps. Every product is worked out in full, so
that signed zeros and infinities come out the same whatever map they meet. -/

namespace Lindenmayer

structure Vec where
  x : Float32
  y : Float32
deriving DecidableEq, BEq

namespace Vec

def zero : Vec := ⟨0,0⟩

instance : Add Vec := ⟨fun u v => ⟨u.x+v.x,u.y+v.y⟩⟩
@[simp] theorem add_x (u v : Vec) : (u+v).x = u.x+v.x := rfl
@[simp] theorem add_y (u v : Vec) : (u+v).y = u.y+v.y := rfl

end Vec

/-- The map `v ↦ v.x · xAxis + v.y · yAxis + origin`. -/
structure Affine where
  xAxis : Vec
  yAxis : Vec
  origin : Vec
deriving DecidableEq

namespace Affine

def identity : Affine := ⟨⟨1,0⟩,⟨0,1⟩,⟨0,0⟩⟩

def shift (v : Vec) : Affine := ⟨⟨1,0⟩,⟨0,1⟩,v⟩

/-- Turns by an angle in radians. -/
def rotation (a : Float32) : Affine :=
  let s := Scalar.sin a
  let c := Scalar.cos a
  ⟨⟨c,s⟩,⟨-s,c⟩,⟨0,0⟩⟩

/-- The map without its shift. -/
def linear (m : Affine) (v : Vec) : Vec :=
  ⟨m.xAxis.x*v.x+m.yAxis.x*v.y,m.xAxis.y*v.x+m.yAxis.y*v.y⟩

def point (m : Affine) (v : Vec) : Vec := m.linear v + m.origin

/-- First `n`, then `m`. -/
def comp (m n : Affine) : Affine := ⟨m.linear n.xAxis,m.linear n.yAxis,m.point n.origin⟩
instance : Mul Affine := ⟨comp⟩

@[simp] theorem mul_xAxis (m n : Affine) : (m*n).xAxis = m.linear n.xAxis := rfl
@[simp] theorem mul_yAxis (m n : Affine) : (m*n).yAxis = m.linear n.yAxis := rfl
@[simp] theorem mul_origin (m n : Affine) : (m*n).origin = m.point n.origin := rfl
@[simp] theorem origin_shift (v : Vec) : (shift v).origin = v := rfl

end Affine
end Lindenmayer
