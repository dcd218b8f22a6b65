import Lindenmayer.Proofs.Canvas.Record
import Lindenmayer.Proofs.Canvas.Stack
import Mathlib.Data.List.Basic

/-! The record of a canvas is complete: all that the canvas is comes back when the recorded
operations are drawn on an empty one. Until the canvas is cleared the record only grows. -/

namespace Lindenmayer

namespace DrawOp

def isTriangle : DrawOp → Bool
  | .triangle _ _ _ => true
  | _ => false

def segment? (f : Frame) : DrawOp → Option Segment
  | .line p q => some ⟨f.transform.point p,f.transform.point q,f.style.stroke,f.style.weight⟩
  | _ => none

def triangle? (f : Frame) : DrawOp → Option Triangle
  | .triangle p q r =>
    some ⟨f.transform.point p,f.transform.point q,f.transform.point r,f.style.fill⟩
  | _ => none

/-- The saves still open after an operation. -/
def depthAfter (n : Nat) : DrawOp → Nat
  | .save => n+1
  | .restore => n-1
  | _ => n

theorem isSome_segment? (f : Frame) (op : DrawOp) : (op.segment? f).isSome = op.isLine := by
  cases op <;> rfl
theorem isSome_triangle? (f : Frame) (op : DrawOp) : (op.triangle? f).isSome = op.isTriangle := by
  cases op <;> rfl

/-- What the operations draw of one kind, each in the frame that those before it leave behind on an
empty canvas. -/
def drawn {α : Type} (draw? : Frame → DrawOp → Option α) (ops : List DrawOp) : List α :=
  ops.zipIdx.filterMap fun p => draw? (Canvas.empty.drawAll (ops.take p.2)).frame p.1

section
variable {α : Type} {draw? : Frame → DrawOp → Option α}

@[simp] theorem drawn_nil : drawn draw? [] = [] := rfl

theorem drawn_append_singleton (ops : List DrawOp) (op : DrawOp) :
    drawn draw? (ops++[op]) =
      drawn draw? ops ++ (draw? (Canvas.empty.drawAll ops).frame op).toList := by
  have hbefore : ∀ p ∈ ops.zipIdx, (ops++[op]).take p.2 = ops.take p.2 := fun p hp =>
    List.take_append_of_le_length (Nat.le_of_lt (List.snd_lt_of_mem_zipIdx hp))
  rw [drawn,drawn,List.zipIdx_append,List.filterMap_append]
  congr 1
  · refine List.filterMap_congr fun p hp => ?_
    rw [hbefore p hp]
  · cases h : draw? (Canvas.empty.drawAll ops).frame op <;> simp [h]

theorem length_drawn {kind : DrawOp → Bool} (h : ∀ f op, (draw? f op).isSome = kind op)
    (ops : List DrawOp) : (drawn draw? ops).length = ops.countP kind := by
  induction ops using List.reverseRecOn with
  | nil => rfl
  | append_singleton ops op ih =>
    rw [drawn_append_singleton,List.length_append,ih,List.countP_append,List.countP_singleton,
      ← h (Canvas.empty.drawAll ops).frame op]
    cases draw? (Canvas.empty.drawAll ops).frame op <;> rfl

end
end DrawOp

namespace Canvas
open DrawOp

theorem segments_draw_toList (c : Canvas) (op : DrawOp) :
    (c.draw op).segments.toList = c.segments.toList ++ (op.segment? c.frame).toList := by
  cases op with
  | line p q => simp [perform,segment?,transform,style]
  | _ => rw [segments_draw,segments_perform_of_not_line c rfl]; simp [segment?]

theorem triangles_draw_toList (c : Canvas) (op : DrawOp) :
    (c.draw op).triangles.toList = c.triangles.toList ++ (op.triangle? c.frame).toList := by
  cases op with
  | triangle p q r => simp [perform,triangle?,transform,style]
  | restore => rw [triangles_draw,perform]; split <;> simp [triangle?]
  | _ => simp [perform,triangle?,setStyle,setTransform]

theorem depth_draw (c : Canvas) (op : DrawOp) : (c.draw op).depth = op.depthAfter c.depth := by
  cases op with
  | restore => simp [depth,depthAfter]
  | _ => rfl

theorem depth_drawAll (c : Canvas) (ops : List DrawOp) :
    (c.drawAll ops).depth = ops.foldl depthAfter c.depth := by
  induction ops generalizing c with
  | nil => rfl
  | cons op ops ih => rw [drawAll_cons,ih,depth_draw,List.foldl_cons]

theorem segments_drawAll_empty (ops : List DrawOp) :
    (empty.drawAll ops).segments.toList = drawn segment? ops := by
  induction ops using List.reverseRecOn with
  | nil => rfl
  | append_singleton ops op ih =>
    rw [drawn_append_singleton,← ih,drawAll_append]
    exact segments_draw_toList (empty.drawAll ops) op

theorem triangles_drawAll_empty (ops : List DrawOp) :
    (empty.drawAll ops).triangles.toList = drawn triangle? ops := by
  induction ops using List.reverseRecOn with
  | nil => rfl
  | append_singleton ops op ih =>
    rw [drawn_append_singleton,← ih,drawAll_append]
    exact triangles_draw_toList (empty.drawAll ops) op

inductive Event
  | draw (op : DrawOp)
  | clear
deriving DecidableEq

def handle (c : Canvas) : Event → Canvas
  | .draw op => c.draw op
  | .clear => c.clear

def run (c : Canvas) (es : List Event) : Canvas := es.foldl handle c

@[simp] theorem run_nil (c : Canvas) : c.run [] = c := rfl
@[simp] theorem run_cons (c : Canvas) (e : Event) (es : List Event) :
    c.run (e::es) = (c.handle e).run es := rfl
theorem run_draw (c : Canvas) (ops : List DrawOp) : c.run (ops.map .draw) = c.drawAll ops := by
  rw [run,List.foldl_map]
  rfl

/-- The canvas is what its own record makes of an empty one. -/
def Recorded (c : Canvas) : Prop := empty.drawAll c.ops.toList = c

theorem recorded_empty : empty.Recorded := rfl

theorem Recorded.handle {c : Canvas} (hc : c.Recorded) (e : Event) : (c.handle e).Recorded := by
  cases e with
  | clear => exact recorded_empty
  | draw op =>
    have hops : (c.draw op).ops.toList = c.ops.toList ++ [op] := by simp
    rw [Recorded,Canvas.handle,hops,drawAll_append,hc]
    rfl

theorem Recorded.run {c : Canvas} (hc : c.Recorded) (es : List Event) : (c.run es).Recorded := by
  induction es generalizing c with
  | nil => exact hc
  | cons e es ih => exact ih (hc.handle e)

/-- After any operations and clearings of a new canvas, drawing what it has recorded on another new
one makes the same canvas. Drawing more on it leaves everything recorded where it is; a restore
gives back the frame of the last save and adds nothing to the picture. The segments and the
triangles are those of the lines and triangles recorded, one for each and in the same order, and as
many saves are open as the record says. -/
theorem run_recorded (es : List Event) :
    let c := empty.run es
    empty.drawAll c.ops.toList = c ∧
    (∀ ops : List DrawOp,
      let d := c.run (ops.map .draw)
      d.ops.toList = c.ops.toList ++ ops ∧ c.segments.toList <+: d.segments.toList ∧
        c.triangles.toList <+: d.triangles.toList) ∧
    ((c.draw .restore).segments = c.segments ∧ (c.draw .restore).triangles = c.triangles ∧
      (c.draw .restore).frame = c.saved.head?.getD c.frame ∧
      (c.draw .restore).saved = c.saved.tail) ∧
    (c.segments.toList = drawn segment? c.ops.toList ∧
      c.segments.size = c.ops.toList.countP isLine) ∧
    (c.triangles.toList = drawn triangle? c.ops.toList ∧
      c.triangles.size = c.ops.toList.countP isTriangle) ∧
    c.depth = c.ops.toList.foldl depthAfter 0 := by
  intro c
  have hc : empty.drawAll c.ops.toList = c := recorded_empty.run es
  have hsegments := segments_drawAll_empty c.ops.toList
  have htriangles := triangles_drawAll_empty c.ops.toList
  have hdepth := depth_drawAll empty c.ops.toList
  rw [hc] at hsegments htriangles hdepth
  refine ⟨hc,fun ops => ?_,⟨?_,?_,?_,?_⟩,⟨hsegments,?_⟩,⟨htriangles,?_⟩,hdepth⟩
  · rw [run_draw,drawAll_eq_onto]
    refine ⟨?_,?_,?_⟩
    · rw [← drawAll_eq_onto,toList_ops_drawAll]
    · rw [toList_segments_onto]
      exact List.prefix_append _ _
    · rw [toList_triangles_onto]
      exact List.prefix_append _ _
  · exact segments_perform_of_not_line c rfl
  · simpa [triangle?] using triangles_draw_toList c .restore
  · exact frame_perform_restore c
  · exact saved_perform_restore c
  · rw [← Array.length_toList,hsegments,length_drawn isSome_segment?]
  · rw [← Array.length_toList,htriangles,length_drawn isSome_triangle?]

end Canvas
end Lindenmayer
