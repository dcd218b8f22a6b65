import Lindenmayer.Color
import Lindenmayer.Plane.Box

/-! The canvas: a frame to draw in, a stack of saved frames, and a record of all that was drawn. -/

namespace Lindenmayer

/-- What can be done on a canvas, in the coordinates of its current frame. -/
inductive DrawOp
  | line (start finish : Vec)
  | strokeColor (c : Color)
  | strokeWeight (w : Float32)
  | noStroke
  | fill (c : Color)
  | triangle (a b c : Vec)
  | translate (v : Vec)
  | rotate (angle : Float32)
  | save
  | restore
deriving DecidableEq

/-- How lines and triangles look; without a stroke color lines have none. -/
structure Style where
  stroke : Option Color
  weight : Float32
  fill : Option Color
deriving DecidableEq

def Style.initial : Style := ⟨some (.gray 0),1,none⟩

/-- What is saved and restored together. -/
structure Frame where
  transform : Affine
  style : Style
deriving DecidableEq

def Frame.initial : Frame := ⟨.identity,.initial⟩

/-- A line drawn, in the coordinates of the canvas itself. -/
structure Segment where
  start : Vec
  finish : Vec
  color : Option Color
  weight : Float32
deriving DecidableEq

/-- A triangle drawn, in the coordinates of the canvas itself. -/
structure Triangle where
  a : Vec
  b : Vec
  c : Vec
  fill : Option Color
deriving DecidableEq

structure Canvas where
  frame : Frame
  saved : List Frame
  ops : Array DrawOp
  segments : Array Segment
  triangles : Array Triangle
deriving DecidableEq

namespace Canvas

def empty : Canvas := ⟨.initial,[],#[],#[],#[]⟩

/-- Forgets all that was drawn and saved. -/
def clear (_ : Canvas) : Canvas := empty

def transform (c : Canvas) : Affine := c.frame.transform
def style (c : Canvas) : Style := c.frame.style
def depth (c : Canvas) : Nat := c.saved.length

def setStyle (c : Canvas) (s : Style) : Canvas := { c with frame := { c.frame with style := s } }
def setTransform (c : Canvas) (m : Affine) : Canvas :=
  { c with frame := { c.frame with transform := m } }

/-- What an operation does, its record left aside. With nothing saved, a restore does nothing. -/
def perform (c : Canvas) : DrawOp → Canvas
  | .line p q =>
    let m := c.transform
    let s : Segment := ⟨m.point p,m.point q,c.style.stroke,c.style.weight⟩
    { c with segments := c.segments.push s }
  | .strokeColor k => c.setStyle { c.style with stroke := some k }
  | .strokeWeight w => c.setStyle { c.style with weight := w }
  | .noStroke => c.setStyle { c.style with stroke := none }
  | .fill k => c.setStyle { c.style with fill := some k }
  | .triangle p q r =>
    let m := c.transform
    let t : Triangle := ⟨m.point p,m.point q,m.point r,c.style.fill⟩
    { c with triangles := c.triangles.push t }
  | .translate v => c.setTransform (c.transform*Affine.shift v)
  | .rotate a => c.setTransform (c.transform*Affine.rotation a)
  | .save => { c with saved := c.frame::c.saved }
  | .restore =>
    match c.saved with
    | [] => c
    | f::rest => { c with frame := f, saved := rest }

def draw (c : Canvas) (op : DrawOp) : Canvas :=
  let c := c.perform op
  { c with ops := c.ops.push op }

@[simp] theorem ops_perform (c : Canvas) (op : DrawOp) : (c.perform op).ops = c.ops := by
  cases op <;> simp [perform,setStyle,setTransform]
  split <;> rfl
@[simp] theorem ops_draw (c : Canvas) (op : DrawOp) : (c.draw op).ops = c.ops.push op := by
  simp [draw]
@[simp] theorem frame_draw (c : Canvas) (op : DrawOp) :
    (c.draw op).frame = (c.perform op).frame := rfl
@[simp] theorem saved_draw (c : Canvas) (op : DrawOp) :
    (c.draw op).saved = (c.perform op).saved := rfl
@[simp] theorem segments_draw (c : Canvas) (op : DrawOp) :
    (c.draw op).segments = (c.perform op).segments := rfl
@[simp] theorem triangles_draw (c : Canvas) (op : DrawOp) :
    (c.draw op).triangles = (c.perform op).triangles := rfl

def drawAll (c : Canvas) (ops : List DrawOp) : Canvas := ops.foldl draw c

@[simp] theorem drawAll_nil (c : Canvas) : c.drawAll [] = c := rfl
@[simp] theorem drawAll_cons (c : Canvas) (op : DrawOp) (ops : List DrawOp) :
    c.drawAll (op::ops) = (c.draw op).drawAll ops := rfl
@[simp] theorem drawAll_append (c : Canvas) (ops more : List DrawOp) :
    c.drawAll (ops++more) = (c.drawAll ops).drawAll more := by simp [drawAll]
@[simp] theorem toList_ops_drawAll (c : Canvas) (ops : List DrawOp) :
    (c.drawAll ops).ops.toList = c.ops.toList ++ ops := by
  induction ops generalizing c <;> simp_all

/-- The box around all lines, if there are any. -/
def bounds (c : Canvas) : Option Box :=
  c.segments.foldl (fun b s =>
    some (((b.getD (.ofPoint s.start)).add s.start).add s.finish)) none

end Canvas
end Lindenmayer
