import Lindenmayer.Proofs.Turtle.Trace

/-! What a pass leaves of the stack it was given. Its own saves are all given back; each stray
closing bracket takes one frame of the caller's, and the last one taken is the frame the canvas is
left in. -/

namespace Lindenmayer.Turtle

theorem saved_render (cfg : Config) (c : Canvas) :
    (cfg.render c).canvas.saved = c.saved.drop (Word.tally (executed cfg.instructions)).stray := by
  rw [Config.canvas_render,Config.trace,Canvas.saved_drawAll_enclosed,Config.tally_body]

theorem frame_render (cfg : Config) (c : Canvas) {f : Frame}
    (h : (c.frame::c.saved)[(Word.tally (executed cfg.instructions)).stray]? = some f) :
    (cfg.render c).canvas.frame = f := by
  rw [Config.canvas_render,Config.trace]
  exact Canvas.frame_drawAll_enclosed c cfg.body (by rw [Config.tally_body]; exact h)

/-- With `u` stray closing brackets among the symbols carried out, a pass takes the upper `u` frames
off the stack, or all of them if there are fewer, whether it succeeds or fails. It ends in the frame
it began in if `u = 0`, and in the last frame it took if there were enough. -/
theorem renderOn_unwinds (t : Turtle) (c : Canvas) :
    let u := (Word.tally (executed t.config.instructions)).stray
    let after := (t.renderOn c).2.1
    after.saved = c.saved.drop (min u c.depth) ∧
      (u = 0 → after.transform = c.transform ∧ after.style = c.style) ∧
      (∀ e, 1 ≤ u → c.saved[u-1]? = some e →
        after.transform = e.transform ∧ after.style = e.style) ∧
      (c.depth < u → after.saved = []) := by
  intro u after
  have hsaved : after.saved = c.saved.drop u := saved_render t.config c
  have hframe {f : Frame} (h : (c.frame::c.saved)[u]? = some f) : after.frame = f :=
    frame_render t.config c h
  refine ⟨?_,?_,?_,?_⟩
  · rw [hsaved]
    by_cases hle : u ≤ c.depth
    · rw [Nat.min_eq_left hle]
    · have hall : c.depth ≤ u := Nat.le_of_not_le hle
      rw [Nat.min_eq_right hall,List.drop_eq_nil_of_le hall]
      exact List.drop_length.symm
  · intro hu
    have hf : after.frame = c.frame := hframe (by rw [hu]; rfl)
    simp [Canvas.transform,Canvas.style,hf]
  · intro e hu he
    have hf : after.frame = e := hframe (by rw [List.getElem?_cons,if_neg (by omega)]; exact he)
    simp [Canvas.transform,Canvas.style,hf]
  · intro hu
    rw [hsaved]
    exact List.drop_eq_nil_of_le (Nat.le_of_lt hu)

/-- A stray bracket loses the caller's translation and takes the frame saved before it, even though
the pass fails later. -/
theorem renderOn_unwinds_stray :
    let t := Turtle.new { Config.initial with instructions := "F]X".toList }
    let c := (Canvas.empty.draw .save).draw (.translate ⟨1,0⟩)
    (1 ≤ (Word.tally (executed t.config.instructions)).stray ∧ c.saved[0]? = some .initial) ∧
      (t.renderOn c).2.1.saved = [] ∧
      (t.renderOn c).2.1.transform = Frame.initial.transform := by
  intro t c
  have hstray : (Word.tally (executed t.config.instructions)).stray = 1 := by decide
  have hsaved : c.saved[0]? = some .initial := rfl
  obtain ⟨hdrop,-,hframe,-⟩ := renderOn_unwinds t c
  rw [hstray] at hdrop hframe
  exact ⟨⟨Nat.le_of_eq hstray.symm,hsaved⟩,hdrop,(hframe .initial (Nat.le_refl 1) hsaved).1⟩

example : Word.tally (executed "[F]]]X[".toList) = ⟨2,0⟩ := by decide

end Lindenmayer.Turtle
