import Lindenmayer.Canvas.Basic

/-! What a drawing adds to the record of a canvas. Nothing recorded before is lost, and what is added
does not depend on it. -/

namespace Lindenmayer

def DrawOp.isLine : DrawOp → Bool
  | .line _ _ => true
  | _ => false

namespace Canvas

theorem segments_perform_of_not_line (c : Canvas) {op : DrawOp} (h : op.isLine = false) :
    (c.perform op).segments = c.segments := by
  cases op with
  | line p q => simp [DrawOp.isLine] at h
  | restore => rw [perform]; split <;> rfl
  | _ => rfl

theorem segments_perform_of_line (c : Canvas) {op : DrawOp} (h : op.isLine = true) :
    ∃ s, (c.perform op).segments = c.segments.push s := by
  cases op with
  | line p q => exact ⟨_,rfl⟩
  | _ => simp [DrawOp.isLine] at h

theorem segments_drawAll (c : Canvas) (ops : List DrawOp) :
    ∃ drawn, (c.drawAll ops).segments.toList = c.segments.toList ++ drawn ∧
      drawn.length = ops.countP DrawOp.isLine := by
  induction ops generalizing c with
  | nil => exact ⟨[],by simp⟩
  | cons op ops ih =>
    obtain ⟨drawn,hseg,hlen⟩ := ih (c.draw op)
    rw [drawAll_cons,hseg,segments_draw]
    cases h : op.isLine with
    | false => exact ⟨drawn,by rw [segments_perform_of_not_line c h],by simp [h,hlen]⟩
    | true =>
      obtain ⟨s,hs⟩ := segments_perform_of_line c h
      exact ⟨s::drawn,by simp [hs],by simp [h,hlen]⟩

/-- The same frame and the same stack, with nothing recorded. -/
def blank (c : Canvas) : Canvas := { c with ops := #[], segments := #[], triangles := #[] }

/-- The record of `b` put after that of `c`, in the frame and with the stack of `b`. -/
def onto (b c : Canvas) : Canvas :=
  { b with
    ops := c.ops ++ b.ops
    segments := c.segments ++ b.segments
    triangles := c.triangles ++ b.triangles }

@[simp] theorem toList_ops_onto (b c : Canvas) :
    (b.onto c).ops.toList = c.ops.toList ++ b.ops.toList := by simp [onto]
@[simp] theorem toList_segments_onto (b c : Canvas) :
    (b.onto c).segments.toList = c.segments.toList ++ b.segments.toList := by simp [onto]
@[simp] theorem toList_triangles_onto (b c : Canvas) :
    (b.onto c).triangles.toList = c.triangles.toList ++ b.triangles.toList := by simp [onto]
@[simp] theorem blank_onto (b c : Canvas) : (b.onto c).blank = b.blank := rfl
@[simp] theorem onto_blank (c : Canvas) : c.blank.onto c = c := by simp [onto,blank]

theorem blank_eq {b c : Canvas} (hframe : b.frame = c.frame) (hsaved : b.saved = c.saved) :
    b.blank = c.blank := by
  simp only [blank,hframe,hsaved]

theorem draw_onto (b c : Canvas) (op : DrawOp) : (b.onto c).draw op = (b.draw op).onto c := by
  cases op with
  | restore =>
    cases hs : b.saved <;> simp [draw,perform,onto,hs,Array.push_append]
  | _ => simp [draw,perform,onto,setStyle,setTransform,transform,style,Array.push_append]

theorem drawAll_onto (b c : Canvas) (ops : List DrawOp) :
    (b.onto c).drawAll ops = (b.drawAll ops).onto c := by
  induction ops generalizing b with
  | nil => rfl
  | cons op ops ih => rw [drawAll_cons,draw_onto,ih,drawAll_cons]

/-- What is drawn on a canvas is what is drawn on a blank one, after what was recorded before. -/
theorem drawAll_eq_onto (c : Canvas) (ops : List DrawOp) :
    c.drawAll ops = (c.blank.drawAll ops).onto c := by
  have hh := drawAll_onto c.blank c ops
  rwa [onto_blank] at hh

end Canvas
end Lindenmayer
