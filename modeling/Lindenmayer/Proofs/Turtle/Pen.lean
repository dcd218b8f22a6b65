import Lindenmayer.Proofs.Turtle.Path
import Mathlib.Logic.Function.Iterate

/-! The pen of each line. Restoring a frame may bring back any color and any weight, but both are
set anew before a line is drawn, and the color to be set is kept apart from the canvas. -/

namespace Lindenmayer

/-- The color and the weight that a line was drawn with. -/
def Segment.pen (s : Segment) : Option Color × Float32 := (s.color,s.weight)

namespace Turtle
namespace Config

/-- The color of the pen after `n` lines. -/
def penColor (cfg : Config) (n : ℕ) : Color :=
  if cfg.changesColor then (·.advance cfg.colorChange)^[n] cfg.color else cfg.color

@[simp] theorem penColor_zero (cfg : Config) : cfg.penColor 0 = cfg.color := by
  unfold penColor; split <;> rfl
theorem penColor_succ (cfg : Config) (n : ℕ) :
    cfg.penColor (n+1) = Pass.nextColor cfg (cfg.penColor n) := by
  cases h : cfg.changesColor
  · simp [penColor,Pass.nextColor,h]
  · simp [penColor,Pass.nextColor,h,Function.iterate_succ_apply']

theorem colorThrough_eq_penColor (cfg : Config) (w : Word) :
    cfg.colorThrough cfg.color w = cfg.penColor (w.count 'F') := by
  induction w using List.reverseRecOn with
  | nil => simp [colorThrough]
  | append_singleton w x ih =>
    have hread : cfg.colorThrough cfg.color (w++[x]) =
        cfg.colorAfter (cfg.penColor (w.count 'F')) x := by
      rw [← ih,colorThrough,List.foldl_append]
      rfl
    rw [hread,colorAfter,List.count_append]
    by_cases hx : x = 'F'
    · rw [if_pos hx,hx,List.count_singleton_self,penColor_succ]
    · simp [hx]

theorem pens_opsFrom (cfg : Config) (c : Canvas) (w : Word) :
    ∃ drawn : List Segment,
      (c.drawAll (cfg.opsFrom cfg.color w)).segments.toList = c.segments.toList ++ drawn ∧
      drawn.map Segment.pen =
        (List.range (w.count 'F')).map fun k => (some (cfg.penColor (k+1)),cfg.weight) := by
  induction w using List.reverseRecOn with
  | nil => exact ⟨[],by simp [opsFrom],rfl⟩
  | append_singleton w x ih =>
    obtain ⟨drawn,hseg,hpens⟩ := ih
    rw [opsFrom_append,Canvas.drawAll_append,opsFrom_singleton,segments_opsOf,List.count_append]
    by_cases hx : x = 'F'
    · -- Color and weight are set right before the line: the frame that `w` left is no matter.
      subst hx
      have hcolor : cfg.colorAfter (cfg.colorThrough cfg.color w) 'F' =
          cfg.penColor (w.count 'F'+1) := by
        rw [colorThrough_eq_penColor,penColor_succ]; rfl
      refine ⟨_,by rw [if_pos rfl,Array.toList_push,hseg,List.append_assoc],?_⟩
      rw [hcolor,List.map_append,hpens,List.count_singleton_self,List.range_succ,List.map_append]
      rfl
    · exact ⟨drawn,by rw [if_neg hx,hseg],by simp [hpens,hx]⟩

end Config

theorem pens_render (cfg : Config) (c : Canvas) :
    ∃ drawn : List Segment,
      (cfg.render c).canvas.segments.toList = c.segments.toList ++ drawn ∧
      drawn.map Segment.pen = (List.range ((executed cfg.instructions).count 'F')).map
        fun k => (some (cfg.penColor (k+1)),cfg.weight) := by
  obtain ⟨drawn,hseg,hpens⟩ := cfg.pens_opsFrom (c.draw .save) (executed cfg.instructions)
  exact ⟨drawn,(segments_render cfg c).trans hseg,hpens⟩

/-- Whatever the instructions, the canvas and the color that the turtle has now, the `k`th line that
a pass draws has the weight configured and the configured color advanced `k` times, or that color
itself if it does not change. The turtle is left with the color of the last line. -/
theorem renderOn_pens (t : Turtle) (c : Canvas) :
    let n := (executed t.config.instructions).count 'F'
    ∃ drawn : List Segment,
      (t.renderOn c).2.1.segments.toList = c.segments.toList ++ drawn ∧
      drawn.map Segment.pen =
        (List.range n).map (fun k => (some (t.config.penColor (k+1)),t.config.weight)) ∧
      (t.renderOn c).1.color = t.config.penColor n ∧ (t.renderOn c).1.config = t.config := by
  obtain ⟨drawn,hseg,hpens⟩ := pens_render t.config c
  exact ⟨drawn,hseg,hpens,
    (t.config.color_render c).trans (t.config.colorThrough_eq_penColor _),rfl⟩

end Turtle
end Lindenmayer
