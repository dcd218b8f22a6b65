import Lindenmayer.Proofs.Figure.Run
import Mathlib.Logic.Function.Iterate

/-! What a figure keeps of what was done with it. The time counts the renders that succeeded, the
rotation the updates; the canvas that the figure owns comes back from every render with the render
recorded on it, whether it succeeded or failed. -/

namespace Lindenmayer.Figure

/-- What an event answers, if it is a render. -/
def answer? (f : Figure) : Event → Option (Except Turtle.Failure Unit)
  | .render => some f.render.2
  | .renderOn c => some (f.renderOn c).2.2
  | _ => none

def answers (f : Figure) : List Event → List (Except Turtle.Failure Unit)
  | [] => []
  | e::es => (f.answer? e).toList ++ (f.handle e).answers es

/-- Whether the figure owns the same canvas after the event as before, if it owns any. -/
def Event.keepsCanvas : Event → Bool
  | .setCanvas _ | .takeCanvas => false
  | _ => true

/-- What the renders of a run draw on the canvas that the figure owns. -/
def drawnBy (f : Figure) : List Event → List DrawOp
  | [] => []
  | e::es => (if e = .render then f.trace else []) ++ (f.handle e).drawnBy es

theorem time_renderOn (f : Figure) (c : Canvas) :
    (f.renderOn c).1.time = f.time+[(f.renderOn c).2.2].countP Except.isOk := by
  unfold renderOn
  cases h : (f.turtle.renderOn (f.place c).canvas).2.2 <;> simp [h,Except.isOk,Except.toBool]

theorem time_handle (f : Figure) (e : Event) :
    (f.handle e).time = f.time+(f.answer? e).toList.countP Except.isOk := by
  cases e with
  | render =>
    cases h : f.turtle.canvas with
    | none => simp [handle,answer?,render_of_none f h,Except.isOk,Except.toBool]
    | some c =>
      rw [handle,answer?,render_of_some f h]
      exact time_renderOn f c
  | renderOn c => exact time_renderOn f c
  | _ => rfl

theorem time_run (f : Figure) (es : List Event) :
    (f.run es).time = f.time+(f.answers es).countP Except.isOk := by
  induction es generalizing f with
  | nil => rfl
  | cons e es ih => rw [run_cons,ih,time_handle,answers,List.countP_append,Nat.add_assoc]

theorem rotation_handle (f : Figure) (e : Event) :
    (f.handle e).rotation = if e = .update then f.rotation+f.config.spin else f.rotation := by
  cases e with
  | render =>
    cases h : f.turtle.canvas with
    | none => simp [handle,render_of_none f h]
    | some c => simp [handle,render_of_some f h,setCanvas,renderOn]
  | _ => rfl

theorem rotation_run (f : Figure) (es : List Event) :
    (f.run es).rotation = (· + f.config.spin)^[es.count .update] f.rotation := by
  induction es generalizing f with
  | nil => rfl
  | cons e es ih =>
    rw [run_cons,ih,(config_handle f e).1,rotation_handle,List.count_cons]
    by_cases h : e = .update
    · simp [h,Function.iterate_succ_apply]
    · simp [h]

theorem system_handle (f : Figure) (e : Event) : (f.handle e).system = f.system := by
  cases e with
  | render =>
    rw [handle]
    cases h : f.turtle.canvas with
    | none => rw [render_of_none f h]
    | some c => rw [render_of_some f h]; rfl
  | _ => rfl

theorem system_run (f : Figure) (es : List Event) : (f.run es).system = f.system := by
  induction es generalizing f with
  | nil => rfl
  | cons e es ih => rw [run_cons,ih,system_handle]

theorem canvas_handle (f : Figure) {e : Event} (h : e.keepsCanvas = true) :
    (f.handle e).turtle.canvas =
      f.turtle.canvas.map (·.drawAll (if e = .render then f.trace else [])) := by
  have hsame (o : Option Canvas) : o = o.map (·.drawAll []) := by cases o <;> rfl
  cases e with
  | render =>
    cases hc : f.turtle.canvas with
    | none => simp [handle,render_of_none f hc,hc]
    | some c =>
      rw [handle,render_of_some f hc,canvas_renderOn]
      rfl
  | update | renderOn => exact hsame f.turtle.canvas
  | setCanvas | takeCanvas => simp [Event.keepsCanvas] at h

theorem canvas_run (f : Figure) {es : List Event} (h : ∀ e ∈ es, e.keepsCanvas = true) :
    (f.run es).turtle.canvas = f.turtle.canvas.map (·.drawAll (f.drawnBy es)) := by
  induction es generalizing f with
  | nil => cases hc : f.turtle.canvas <;> simp [drawnBy,hc]
  | cons e es ih =>
    obtain ⟨he,hes⟩ := List.forall_mem_cons.1 h
    rw [run_cons,ih (f.handle e) hes,canvas_handle f he]
    cases f.turtle.canvas <;> simp [drawnBy]

theorem toList_ops_renderOn (f : Figure) (c : Canvas) :
    (f.renderOn c).2.1.ops.toList = c.ops.toList ++ f.trace := by
  rw [canvas_renderOn,Canvas.toList_ops_drawAll]

/-- After any run of a new figure the time is the number of renders that succeeded, and the rotation
has grown by the spin once for each update; the configuration, the system and the configuration of
the turtle are what they were. A render draws on the canvas that the figure owns as it would on any
other, and the figure owns it again, with the operations of that render after those recorded before;
without a canvas nothing changes. A render onto another canvas leaves the own one alone. So as long
as the canvas is neither set nor taken it stays, and records every render. -/
theorem run_history (cfg : Config) (es : List Event) :
    let f := (new cfg).run es
    f.time = ((new cfg).answers es).countP Except.isOk ∧
    f.rotation = (· + cfg.spin)^[es.count .update] cfg.rotation ∧
    (f.config = cfg ∧ f.system = cfg.system ∧ f.turtle.config = cfg.turtle cfg.system.current) ∧
    (∀ c, f.turtle.canvas = some c → ∃ d, f.render.1.turtle.canvas = some d ∧
      d = (f.renderOn c).2.1 ∧ f.render.2 = (f.renderOn c).2.2 ∧
      d.ops.toList = c.ops.toList ++ f.trace) ∧
    (∀ b, (f.renderOn b).1.turtle.canvas = f.turtle.canvas ∧
      (f.renderOn b).2.1.ops.toList = b.ops.toList ++ f.trace) ∧
    (f.turtle.canvas = none → f.render = (f,.error .noCanvas)) ∧
    ∀ more c, (∀ e ∈ more, Event.keepsCanvas e = true) → f.turtle.canvas = some c →
      ∃ d, (f.run more).turtle.canvas = some d ∧
        d.ops.toList = c.ops.toList ++ f.drawnBy more := by
  intro f
  refine ⟨?_,rotation_run (new cfg) es,⟨(config_run (new cfg) es).1,system_run (new cfg) es,
    (config_run (new cfg) es).2⟩,fun c hc => ?_,fun b => ⟨rfl,toList_ops_renderOn f b⟩,
    render_of_none f,fun more c hmore hc => ?_⟩
  · have htime := time_run (new cfg) es
    rwa [show (new cfg).time = 0 from rfl,Nat.zero_add] at htime
  · rw [render_of_some f hc]
    exact ⟨_,rfl,rfl,rfl,toList_ops_renderOn f c⟩
  · refine ⟨c.drawAll (f.drawnBy more),?_,Canvas.toList_ops_drawAll c _⟩
    rw [canvas_run f hmore,hc]
    rfl

/-- All renders of this figure fail, the first for want of a canvas, the others within a branch. The
canvas is set in between, and records two of the three renders after it. -/
theorem run_history_failing :
    let cfg := { Config.initial with start := "F[?".toList, rules := .empty }
    let f := (new cfg).run [.render,.setCanvas .empty]
    let more : List Event := [.render,.renderOn .empty,.update,.render]
    (((new cfg).run []).turtle.canvas = none ∧ f.turtle.canvas = some .empty ∧
      ∀ e ∈ more, Event.keepsCanvas e = true) ∧
      ((new cfg).run []).render = (new cfg,.error .noCanvas) ∧
      f.render.2 = .error (.invalidAction '?') ∧
      ∃ d, (f.run more).turtle.canvas = some d ∧ d.ops.toList = f.drawnBy more := by
  intro cfg f more
  have hnone : ((new cfg).run []).turtle.canvas = none := rfl
  have hsome : f.turtle.canvas = some .empty := rfl
  have hmore : ∀ e ∈ more, Event.keepsCanvas e = true := by decide
  obtain ⟨-,-,-,hrender,-,-,hrun⟩ := run_history cfg [.render,.setCanvas .empty]
  obtain ⟨-,-,-,hresult,-⟩ := hrender .empty hsome
  have hword : f.turtle.config.instructions = "F[?".toList := by
    rw [(config_run (new cfg) _).2]
    rfl
  have hrefused : Turtle.refused? "F[?".toList = some '?' := by decide
  rw [result_renderOn,hword,hrefused] at hresult
  obtain ⟨d,hd,hops⟩ := hrun more .empty hmore hsome
  exact ⟨⟨hnone,hsome,hmore⟩,(run_history cfg []).2.2.2.2.2.1 hnone,hresult,d,hd,
    hops.trans (List.nil_append _)⟩

end Lindenmayer.Figure
