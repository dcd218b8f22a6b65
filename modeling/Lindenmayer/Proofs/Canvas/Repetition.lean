import Lindenmayer.Proofs.Canvas.Record
import Lindenmayer.Proofs.Canvas.Stack
import Mathlib.Logic.Function.Iterate

/-! The same drawing several times in a row on one canvas. Each time the same operations are recorded;
the same picture is drawn as well if the drawing gives back the frame and the stack it found. -/

namespace Lindenmayer

/-- A number of renders in a row onto one canvas: what renders, and the canvas, after them. -/
def renderRow {α ρ : Type} (render : α → Canvas → α × Canvas × ρ) : Nat → α → Canvas → α × Canvas
  | 0,a,c => (a,c)
  | n+1,a,c => renderRow render n (render a c).1 (render a c).2.1

/-- Seen through `view`, any number of renders in a row leave that many copies of what one render
leaves on a canvas with nothing recorded, all after what was there before. -/
def AppendsCopies {α β ρ : Type} (render : α → Canvas → α × Canvas × ρ) (a : α) (c : Canvas)
    (view : Canvas → List β) : Prop :=
  ∀ n, view (renderRow render n a c).2 =
    view c ++ (List.replicate n (view (render a c.blank).2.1)).flatten

namespace Canvas

theorem blank_drawAll (c : Canvas) (ops : List DrawOp) :
    (c.drawAll ops).blank = (c.blank.drawAll ops).blank := by
  rw [drawAll_eq_onto,blank_onto]

theorem view_drawAll_replicate {β : Type} (view : Canvas → List β)
    (hview : ∀ b c : Canvas, view (b.onto c) = view c ++ view b) {c : Canvas} {ops : List DrawOp}
    (h : (c.drawAll ops).blank = c.blank) (n : Nat) :
    view (c.drawAll (List.replicate n ops).flatten) =
      view c ++ (List.replicate n (view (c.blank.drawAll ops))).flatten := by
  induction n generalizing c with
  | zero => simp
  | succ n ih =>
    -- The second drawing starts on a canvas that differs only in what it has recorded.
    have hagain : ((c.drawAll ops).drawAll ops).blank = (c.drawAll ops).blank := by
      rw [blank_drawAll,h,← blank_drawAll,h]
    have hone : view (c.drawAll ops) = view c ++ view (c.blank.drawAll ops) := by
      rw [← hview,← drawAll_eq_onto]
    rw [List.replicate_succ,List.flatten_cons,drawAll_append,ih hagain,hone,h,
      List.replicate_succ,List.flatten_cons,List.append_assoc]

theorem blank_drawAll_enclosed (c : Canvas) {ops : List DrawOp}
    (h : (DrawOp.tally ops).stray = 0) : (c.drawAll (DrawOp.enclosed ops)).blank = c.blank := by
  obtain ⟨hframe,hsaved⟩ := drawAll_enclosed_of_stray_zero c h
  exact blank_eq hframe hsaved

end Canvas

section
variable {α ρ : Type} {render : α → Canvas → α × Canvas × ρ} {trace : α → List DrawOp}

/-- What renders by drawing its trace, and keeps its trace, draws it once for each render. -/
theorem canvas_renderRow (hdraw : ∀ a c, (render a c).2.1 = c.drawAll (trace a))
    (hkeep : ∀ a c, trace (render a c).1 = trace a) (n : Nat) (a : α) (c : Canvas) :
    (renderRow render n a c).2 = c.drawAll (List.replicate n (trace a)).flatten := by
  induction n generalizing a c with
  | zero => rfl
  | succ n ih =>
    rw [renderRow,ih,hkeep,hdraw,List.replicate_succ,List.flatten_cons,Canvas.drawAll_append]

theorem appendsCopies_ops (hdraw : ∀ a c, (render a c).2.1 = c.drawAll (trace a))
    (hkeep : ∀ a c, trace (render a c).1 = trace a) (a : α) (c : Canvas) :
    AppendsCopies render a c (·.ops.toList) := by
  intro n
  have hone : (c.blank.drawAll (trace a)).ops.toList = trace a :=
    Canvas.toList_ops_drawAll c.blank (trace a)
  simp only [canvas_renderRow hdraw hkeep,hdraw,hone]
  exact Canvas.toList_ops_drawAll c _

theorem appendsCopies_of_restored (hdraw : ∀ a c, (render a c).2.1 = c.drawAll (trace a))
    (hkeep : ∀ a c, trace (render a c).1 = trace a) {a : α} {c : Canvas}
    (h : (c.drawAll (trace a)).blank = c.blank) :
    AppendsCopies render a c (·.segments.toList) ∧
      AppendsCopies render a c (·.triangles.toList) := by
  constructor <;> intro n <;> simp only [canvas_renderRow hdraw hkeep,hdraw]
  · exact Canvas.view_drawAll_replicate (·.segments.toList) Canvas.toList_segments_onto h n
  · exact Canvas.view_drawAll_replicate (·.triangles.toList) Canvas.toList_triangles_onto h n

theorem iterate_render {own : α → Canvas → α} {renderOwn : α → α × ρ}
    (h : ∀ a c, (renderOwn (own a c)).1 = own (render a c).1 (render a c).2.1) (n : Nat) (a : α)
    (c : Canvas) :
    (fun b => (renderOwn b).1)^[n] (own a c) =
      own (renderRow render n a c).1 (renderRow render n a c).2 := by
  induction n generalizing a c with
  | zero => rfl
  | succ n ih => rw [Function.iterate_succ_apply,h,ih,renderRow]

end
end Lindenmayer
