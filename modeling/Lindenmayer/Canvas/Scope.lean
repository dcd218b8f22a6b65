import Lindenmayer.Canvas.Basic

/-! Scopes: a save of a canvas that is given back when the scope is left, whatever happened in
between. A scope counts the saves made through it, and gives back those still open as well. -/

namespace Lindenmayer

structure Scope where
  canvas : Canvas
  /-- Saves made through this scope and not yet restored. -/
  depth : Nat
deriving DecidableEq

namespace Scope

def enter (c : Canvas) : Scope := ⟨c.draw .save,0⟩

def draw (s : Scope) (op : DrawOp) : Scope := { s with canvas := s.canvas.draw op }

def save (s : Scope) : Scope := ⟨s.canvas.draw .save,s.depth+1⟩

/-- Reaches the canvas always, also without an open save, when it takes what lies below. -/
def restore (s : Scope) : Scope := ⟨s.canvas.draw .restore,s.depth-1⟩

/-- Whether a restore now would close a save of this scope. -/
def nested (s : Scope) : Bool := 0 < s.depth

def leave (s : Scope) : Canvas := s.canvas.drawAll (List.replicate (s.depth+1) .restore)

@[simp] theorem canvas_enter (c : Canvas) : (enter c).canvas = c.draw .save := rfl
@[simp] theorem depth_enter (c : Canvas) : (enter c).depth = 0 := rfl
@[simp] theorem canvas_draw (s : Scope) (op : DrawOp) : (s.draw op).canvas = s.canvas.draw op := rfl
@[simp] theorem depth_draw (s : Scope) (op : DrawOp) : (s.draw op).depth = s.depth := rfl
@[simp] theorem canvas_save (s : Scope) : s.save.canvas = s.canvas.draw .save := rfl
@[simp] theorem depth_save (s : Scope) : s.save.depth = s.depth+1 := rfl
@[simp] theorem canvas_restore (s : Scope) : s.restore.canvas = s.canvas.draw .restore := rfl
@[simp] theorem depth_restore (s : Scope) : s.restore.depth = s.depth-1 := rfl

end Scope

/-- A canvas with scopes open on it, one within the other; their depths, the innermost first. -/
structure Nest where
  canvas : Canvas
  depths : List Nat
deriving DecidableEq

namespace Nest

/-- The innermost scope that is open. -/
def scope? (n : Nest) : Option Scope := n.depths.head?.map (⟨n.canvas,·⟩)

def enter (n : Nest) : Nest :=
  let s := Scope.enter n.canvas
  ⟨s.canvas,s.depth::n.depths⟩

/-- Does something within the innermost scope, if there is one. -/
def within (n : Nest) (f : Scope → Scope) : Nest :=
  match n.depths with
  | [] => n
  | d::rest => let s := f ⟨n.canvas,d⟩; ⟨s.canvas,s.depth::rest⟩

def leave (n : Nest) : Nest :=
  match n.depths with
  | [] => n
  | d::rest => ⟨(Scope.mk n.canvas d).leave,rest⟩

def draw (n : Nest) (op : DrawOp) : Nest := { n with canvas := n.canvas.draw op }

end Nest
end Lindenmayer
