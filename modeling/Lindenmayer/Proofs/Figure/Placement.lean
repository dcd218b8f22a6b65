import Lindenmayer.Proofs.Figure.Run
import Lindenmayer.Proofs.Turtle.Calls
import Lindenmayer.Proofs.Turtle.Path
import Lindenmayer.Proofs.Turtle.Unwinding

/-! Where a frame draws, and what it leaves of the stack. It is the turtle's own pass within one
more scope, on a canvas moved to the root and turned; stray brackets may take the save of either
scope, and then the other restores in its place. -/

namespace Lindenmayer

namespace Turtle

theorem segments_opsFrom_congr (cfg : Config) (k : Color) {w : Word}
    (hw : (Word.tally w).stray = 0) {b c : Canvas} (h : b.transform = c.transform) :
    ∃ drawn, (b.drawAll (cfg.opsFrom k w)).segments.toList = b.segments.toList ++ drawn ∧
      (c.drawAll (cfg.opsFrom k w)).segments.toList = c.segments.toList ++ drawn ∧
      drawn.length = w.count 'F' := by
  induction w using List.reverseRecOn with
  | nil => exact ⟨[],by simp [Config.opsFrom],by simp [Config.opsFrom],rfl⟩
  | append_singleton w x ih =>
    have hle := Tally.stray_le_stray_readAll (Word.tally w) (Word.brackets [x])
    rw [← Word.tally_append,hw] at hle
    have hw₀ := Nat.le_zero.1 hle
    obtain ⟨drawn,hb,hc,hlen⟩ := ih hw₀
    have htb := (Config.onTrunk_opsFrom cfg k b hw₀).1.transform
    have htc := (Config.onTrunk_opsFrom cfg k c hw₀).1.transform
    rw [Config.opsFrom_append,Config.opsFrom_singleton,Canvas.drawAll_append,
      Canvas.drawAll_append,Config.segments_opsOf,Config.segments_opsOf,htb,htc,h]
    by_cases hx : x = 'F'
    · subst hx
      refine ⟨_,by rw [if_pos rfl,Array.toList_push,hb,List.append_assoc],?_,?_⟩
      · rw [if_pos rfl,Array.toList_push,hc,List.append_assoc]
      · simp [hlen]
    · exact ⟨drawn,by rw [if_neg hx,hb],by rw [if_neg hx,hc],by simp [hlen,hx]⟩

theorem segments_render_congr (cfg : Config) {b c : Canvas} (h : b.transform = c.transform) :
    let p := executed cfg.instructions
    ∃ xs ys, (cfg.render b).canvas.segments.toList = b.segments.toList ++ xs ∧
      (cfg.render c).canvas.segments.toList = c.segments.toList ++ ys ∧
      xs.length = p.count 'F' ∧ ys.length = p.count 'F' ∧
      ∀ q, q <+: p → (Word.tally q).stray = 0 →
        xs.take (q.count 'F') = ys.take (q.count 'F') := by
  intro p
  obtain ⟨xs,hxs,hxlen⟩ := Canvas.segments_drawAll (b.draw .save) (cfg.opsFrom cfg.color p)
  obtain ⟨ys,hys,hylen⟩ := Canvas.segments_drawAll (c.draw .save) (cfg.opsFrom cfg.color p)
  rw [Config.countP_isLine_opsFrom] at hxlen hylen
  refine ⟨xs,ys,(segments_render cfg b).trans hxs,(segments_render cfg c).trans hys,hxlen,hylen,?_⟩
  rintro q ⟨r,hr⟩ hq
  have hsave : (b.draw .save).transform = (c.draw .save).transform := h
  obtain ⟨drawn,hb,hc,hlen⟩ := segments_opsFrom_congr cfg cfg.color hq hsave
  have hbegins {a : Canvas} {zs : List Segment}
      (ha : (a.drawAll (cfg.opsFrom cfg.color q)).segments.toList = a.segments.toList ++ drawn)
      (hzs : (a.drawAll (cfg.opsFrom cfg.color p)).segments.toList = a.segments.toList ++ zs) :
      zs.take (q.count 'F') = drawn := by
    obtain ⟨more,hmore,-⟩ := Canvas.segments_drawAll (a.drawAll (cfg.opsFrom cfg.color q))
      (cfg.opsFrom (cfg.colorThrough cfg.color q) r)
    rw [← Canvas.drawAll_append,← Config.opsFrom_append,hr,hzs,ha,List.append_assoc] at hmore
    rw [List.append_cancel_left hmore,← hlen,List.take_left]
  rw [hbegins hb hxs,hbegins hc hys]

end Turtle

namespace Figure
open Turtle

theorem trace_eq (f : Figure) :
    f.trace = [.save,.strokeColor frameColor,.translate f.config.root,.rotate f.rotation] ++
      f.turtle.config.trace ++ [.restore] := by
  rw [trace,DrawOp.enclosed,tally_placed]
  rfl

theorem saved_place (f : Figure) (c : Canvas) : (f.place c).canvas.saved = c.frame::c.saved := rfl

theorem transform_place (f : Figure) (c : Canvas) :
    (f.place c).canvas.transform =
      c.transform*Affine.shift f.config.root*Affine.rotation f.rotation := rfl

theorem renderOn_eq_restore (f : Figure) (c : Canvas) :
    (f.renderOn c).2.1 = ((f.turtle.config.render (f.place c).canvas).canvas).draw .restore := rfl

theorem segments_renderOn (f : Figure) (c : Canvas) :
    (f.renderOn c).2.1.segments = (f.turtle.config.render (f.place c).canvas).canvas.segments := by
  rw [renderOn_eq_restore,Canvas.segments_draw,Canvas.segments_perform_of_not_line _ rfl]

theorem saved_renderOn (f : Figure) (c : Canvas) :
    (f.renderOn c).2.1.saved =
      c.saved.drop (Word.tally (executed f.turtle.config.instructions)).stray := by
  rw [canvas_renderOn,trace,Canvas.saved_drawAll_enclosed,tally_placed]

/-- The turtle's scope ends in the frame that the last stray bracket took. The scope of the figure
then takes the next one, or none if that was the last. -/
theorem frame_renderOn (f : Figure) (c : Canvas) {e : Frame}
    (h : let u := (Word.tally (executed f.turtle.config.instructions)).stray
      (c.frame::c.saved)[min u c.depth]? = some e ∧ u ≤ c.depth+1) :
    (f.renderOn c).2.1.frame = e := by
  generalize hu : (Word.tally (executed f.turtle.config.instructions)).stray = u at h
  obtain ⟨he,hle⟩ := h
  rw [renderOn_eq_restore,Canvas.frame_draw,Canvas.frame_perform_restore,saved_render,hu,
    saved_place,List.head?_drop]
  by_cases hd : u ≤ c.depth
  · rw [Nat.min_eq_left hd] at he
    simp [he]
  · obtain rfl : u = c.depth+1 := by omega
    rw [Nat.min_eq_right (Nat.le_succ _)] at he
    have hnone : (c.frame::c.saved)[c.depth+1]? = none := List.getElem?_eq_none (by rfl)
    rw [hnone]
    exact frame_render f.turtle.config _ (by rw [hu,saved_place]; simpa using he)

/-- A frame saves, sets its color, moves to the root and turns, lets the turtle make its own calls,
and restores. Up to the first stray bracket it draws what the turtle draws by itself on a canvas
with the transform so reached. With `u` stray brackets carried out it takes the upper `u` frames off
the stack of `d` frames, or all of them if there are fewer. It ends in the frame it began in if
`u = 0`, in the last frame it took if `u ≤ d`, and in the lowest one there was also if `u = d+1`,
whether it succeeds or fails. -/
theorem renderOn_placed (f : Figure) (c : Canvas) :
    let p := executed f.turtle.config.instructions
    let u := (Word.tally p).stray
    let after := (f.renderOn c).2.1
    (∃ calls, (∀ b : Canvas, (f.turtle.renderOn b).2.1.ops.toList = b.ops.toList ++ calls) ∧
      after.ops.toList = c.ops.toList ++ ([.save,.strokeColor (.gray 200),
        .translate f.config.root,.rotate f.rotation] ++ calls ++ [.restore])) ∧
    (∀ b : Canvas,
      b.transform = c.transform*Affine.shift f.config.root*Affine.rotation f.rotation →
      ∃ drawn alone, after.segments.toList = c.segments.toList ++ drawn ∧
        (f.turtle.renderOn b).2.1.segments.toList = b.segments.toList ++ alone ∧
        drawn.length = p.count 'F' ∧ alone.length = p.count 'F' ∧
        ∀ q, q <+: p → (Word.tally q).stray = 0 →
          drawn.take (q.count 'F') = alone.take (q.count 'F')) ∧
    after.saved = c.saved.drop (min u c.depth) ∧
    (u = 0 → after.transform = c.transform ∧ after.style = c.style) ∧
    (∀ e, 1 ≤ u → c.saved[u-1]? = some e →
      after.transform = e.transform ∧ after.style = e.style) ∧
    (u = c.depth+1 → after.transform = (c.saved.getLast?.getD c.frame).transform ∧
      after.style = (c.saved.getLast?.getD c.frame).style) := by
  intro p u after
  have hframe {e : Frame} (he : (c.frame::c.saved)[min u c.depth]? = some e)
      (hle : u ≤ c.depth+1) : after.transform = e.transform ∧ after.style = e.style := by
    have hf : after.frame = e := frame_renderOn f c ⟨he,hle⟩
    simp [Canvas.transform,Canvas.style,hf]
  refine ⟨⟨f.turtle.config.trace,fun b => ?_,?_⟩,fun b hb => ?_,?_,fun hu => ?_,
    fun e hu he => ?_,fun hu => ?_⟩
  · show (f.turtle.config.render b).canvas.ops.toList = _
    rw [Config.canvas_render,Canvas.toList_ops_drawAll]
  · show (f.renderOn c).2.1.ops.toList = _
    rw [canvas_renderOn,Canvas.toList_ops_drawAll,trace_eq]
    rfl
  · obtain ⟨drawn,alone,hdrawn,halone,hrest⟩ := segments_render_congr f.turtle.config
      ((transform_place f c).trans hb.symm)
    exact ⟨drawn,alone,(congrArg Array.toList (segments_renderOn f c)).trans hdrawn,halone,hrest⟩
  · have hsaved : after.saved = c.saved.drop u := saved_renderOn f c
    rw [hsaved]
    rcases Nat.le_total u c.depth with hle | hle
    · rw [Nat.min_eq_left hle]
    · rw [Nat.min_eq_right hle,List.drop_eq_nil_of_le hle]
      exact List.drop_length.symm
  · exact hframe (by simp [hu]) (by omega)
  · obtain ⟨hlt,-⟩ := List.getElem?_eq_some_iff.1 he
    have hle : u ≤ c.depth := by unfold Canvas.depth; omega
    refine hframe ?_ (Nat.le_succ_of_le hle)
    rw [Nat.min_eq_left hle,List.getElem?_cons,if_neg (by omega)]
    exact he
  · refine hframe ?_ (Nat.le_of_eq hu)
    rw [hu,Nat.min_eq_right (Nat.le_succ _),Canvas.depth]
    cases hs : c.saved with
    | nil => rfl
    | cons e rest => simp [List.getLast?_eq_getElem?]

/-- One frame is saved and two brackets are stray: the first takes the save of the turtle's scope,
the second that of the frame's. The line before them is drawn as on a canvas without a stack. -/
theorem renderOn_placed_stray :
    let f := Figure.new { Figure.Config.initial with start := "F]]X".toList, rules := .empty }
    let c := (Canvas.empty.draw .save).draw (.translate ⟨1,0⟩)
    let b : Canvas := { Canvas.empty with frame := (f.place c).canvas.frame }
    let p := executed f.turtle.config.instructions
    ((Word.tally p).stray = c.depth+1 ∧ 1 ≤ (Word.tally p).stray ∧
      b.transform = c.transform*Affine.shift f.config.root*Affine.rotation f.rotation ∧
      ['F'] <+: p ∧ (Word.tally ['F']).stray = 0) ∧
      (f.renderOn c).2.1.saved = [] ∧
      (f.renderOn c).2.1.transform = Frame.initial.transform ∧
      ∃ drawn alone, (f.renderOn c).2.1.segments.toList = drawn ∧
        (f.turtle.renderOn b).2.1.segments.toList = alone ∧ drawn.take 1 = alone.take 1 := by
  intro f c b p
  have hstray : (Word.tally p).stray = 2 := by decide
  have hbegin : ['F'] <+: p := ⟨[']',']'],by decide⟩
  have htransform :
      b.transform = c.transform*Affine.shift f.config.root*Affine.rotation f.rotation := rfl
  obtain ⟨-,hsegments,hsaved,-,-,hlast⟩ := renderOn_placed f c
  obtain ⟨drawn,alone,hdrawn,halone,-,-,hsame⟩ := hsegments b htransform
  refine ⟨⟨hstray,by rw [hstray]; decide,htransform,hbegin,rfl⟩,?_,(hlast hstray).1,
    drawn,alone,hdrawn,halone,hsame ['F'] hbegin rfl⟩
  rw [hsaved,hstray]
  rfl

end Figure
end Lindenmayer
