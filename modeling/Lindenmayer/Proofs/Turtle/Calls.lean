import Lindenmayer.Proofs.Canvas.Record
import Lindenmayer.Proofs.Turtle.Trace

/-! The calls that a pass makes to what it draws on. Nothing comes back from a call, so they are the
same for a surface of any kind in any state, and the surface is folded over them. -/

namespace Lindenmayer

def DrawOp.isTranslate : DrawOp → Bool
  | .translate _ => true
  | _ => false

namespace Word

/-- Open brackets so far, if closing brackets without a partner do not count. -/
def openedBy (h : Nat) (c : Symbol) : Nat :=
  if c = '[' then h+1 else if c = ']' then h-1 else h

def unclosed (w : Word) : Nat := w.foldl openedBy 0

theorem opened_readAll (w : Word) (t : Tally) :
    (t.readAll (brackets w)).opened = w.foldl openedBy t.opened := by
  induction w generalizing t with
  | nil => rfl
  | cons c w ih =>
    by_cases ho : c = '['
    · subst ho
      rw [brackets_opening,Tally.readAll_cons,ih]
      rfl
    · by_cases hc : c = ']'
      · subst hc
        have hread : (t.read .closing).opened = t.opened-1 := by
          cases h : t.opened <;> simp [Tally.read,h]
        rw [brackets_closing,Tally.readAll_cons,ih,hread]
        rfl
      · have hnone := Bracket.ofSymbol?_eq_none_iff.2 ⟨ho,hc⟩
        rw [brackets_cons_of_none hnone,ih,List.foldl_cons,openedBy,if_neg ho,if_neg hc]

theorem countP_either {a b : Symbol} (h : a ≠ b) (w : Word) :
    w.countP (fun c => c == a || c == b) = w.count a+w.count b := by
  induction w with
  | nil => rfl
  | cons c w ih =>
    by_cases ha : c = a
    · simp [ha,h,ih,Nat.add_right_comm]
    · by_cases hb : c = b
      · simp [hb,Ne.symm h,ih,Nat.add_assoc]
      · simp [ha,hb,ih]

theorem opened_tally (w : Word) : (tally w).opened = unclosed w := opened_readAll w .zero

end Word

namespace Turtle

/-- A pass under way on a surface of any kind: the surface, the saves still open, the color. -/
structure Session (σ : Type) where
  surface : σ
  depth : Nat
  color : Color

namespace Session
variable {σ : Type} (call : σ → DrawOp → σ) (cfg : Config)

def act (s : Session σ) : Action → Session σ
  | .drawForward =>
    let color := Pass.nextColor cfg s.color
    let x := call s.surface (.strokeColor color)
    let x := call x (.strokeWeight cfg.weight)
    let x := call x (.line .zero (Pass.ahead cfg))
    ⟨call x (.translate (Pass.ahead cfg)),s.depth,color⟩
  | .moveForward => { s with surface := call s.surface (.translate (Pass.ahead cfg)) }
  | .turnRight => { s with surface := call s.surface (.rotate cfg.rightTurn) }
  | .turnLeft => { s with surface := call s.surface (.rotate (-cfg.leftTurn)) }
  | .push => { s with surface := call s.surface .save, depth := s.depth+1 }
  | .pop => { s with surface := call s.surface .restore, depth := s.depth-1 }

def follow : Word → Session σ → Session σ × Option Symbol
  | [],s => (s,none)
  | c::w,s =>
    match Action.ofSymbol? c with
    | some a => follow w (s.act call cfg a)
    | none => (s,some c)

/-- Gives back the saves still open, and then the one that the scope began with. -/
def leave (x : σ) : Nat → σ
  | 0 => call x .restore
  | n+1 => leave (call x .restore) n

def drawHead (x : σ) : σ :=
  let x := call x .save
  let x := call x .noStroke
  let x := call x (.fill .red)
  leave call (call x (.triangle .zero ⟨-10,5⟩ ⟨-10,-5⟩)) 0

/-- A whole pass on a surface of any kind. -/
def render (x : σ) : σ × Except Failure Unit :=
  match follow call cfg cfg.instructions ⟨call x .save,0,cfg.color⟩ with
  | (s,some bad) => (leave call s.surface s.depth,.error (.invalidAction bad))
  | (s,none) =>
    (leave call (if cfg.showsHead then drawHead call s.surface else s.surface) s.depth,.ok ())

theorem leave_eq (x : σ) (n : Nat) :
    leave call x n = (List.replicate (n+1) .restore).foldl call x := by
  induction n generalizing x with
  | zero => rfl
  | succ n ih => rw [leave,ih]; rfl

theorem act_eq (s : Session σ) (a : Action) :
    s.act call cfg a =
      ⟨(cfg.opsOf (cfg.colorAfter s.color a.symbol) a.symbol).foldl call s.surface,
        Word.openedBy s.depth a.symbol,cfg.colorAfter s.color a.symbol⟩ := by
  cases a <;> rfl

theorem follow_eq (w : Word) (s : Session σ) :
    follow call cfg w s =
      (⟨(cfg.opsFrom s.color (executed w)).foldl call s.surface,
        (executed w).foldl Word.openedBy s.depth,cfg.colorThrough s.color (executed w)⟩,
        refused? w) := by
  induction w generalizing s with
  | nil => rfl
  | cons c w ih =>
    by_cases hc : c ∈ alphabet
    · obtain ⟨a,ha⟩ := mem_alphabet_iff.1 hc
      obtain rfl := Action.ofSymbol?_eq_some_iff.1 ha
      simp only [follow,ha,ih,act_eq]
      simp [executed,refused?,hc,Config.opsFrom,Config.colorThrough]
    · have hn : Action.ofSymbol? c = none :=
        Option.eq_none_iff_forall_ne_some.2 fun a ha => hc (mem_alphabet_iff.2 ⟨a,ha⟩)
      simp [follow,hn,executed,refused?,hc,Config.opsFrom,Config.colorThrough]

theorem drawHead_eq (x : σ) : drawHead call x = Config.headOps.foldl call x := rfl

theorem render_eq (x : σ) :
    render call cfg x = (cfg.trace.foldl call x,match refused? cfg.instructions with
      | some bad => .error (.invalidAction bad)
      | none => .ok ()) := by
  have htrace : cfg.trace.foldl call x =
      leave call (cfg.head.foldl call ((cfg.opsFrom cfg.color (executed cfg.instructions)).foldl
        call (call x .save))) (Word.unclosed (executed cfg.instructions)) := by
    rw [Config.trace,DrawOp.enclosed,Config.tally_body,Word.opened_tally,leave_eq,Config.body]
    simp
  rw [htrace,render,follow_eq]
  cases hr : refused? cfg.instructions with
  | some bad => simp [Config.head,hr,Word.unclosed]
  | none => cases hs : cfg.showsHead <;> simp [Config.head,hr,hs,Word.unclosed,drawHead_eq]

/-- On a canvas this is the pass itself. -/
theorem render_draw (c : Canvas) :
    render Canvas.draw cfg c = ((cfg.render c).canvas,(cfg.render c).result) := by
  rw [render_eq,Config.canvas_render,Config.result_render]
  rfl

end Session

namespace Config

theorem countP_opsFrom {cfg : Config} {P : DrawOp → Bool} {calls : Symbol → Bool}
    (h : ∀ k c, (cfg.opsOf k c).countP P = if calls c then 1 else 0) (k : Color) (w : Word) :
    (cfg.opsFrom k w).countP P = w.countP calls := by
  induction w generalizing k with
  | nil => rfl
  | cons c w ih => simp [opsFrom,h,ih,List.countP_cons,Nat.add_comm]

theorem countP_isLine_opsFrom (cfg : Config) (k : Color) (w : Word) :
    (cfg.opsFrom k w).countP DrawOp.isLine = w.count 'F' := by
  have hcount : (cfg.opsFrom k w).countP DrawOp.isLine = w.countP (· == 'F') := by
    refine countP_opsFrom (fun k c => ?_) k w
    unfold opsOf
    split <;> simp_all [DrawOp.isLine,List.countP_cons]
  exact hcount

theorem countP_isTranslate_opsFrom (cfg : Config) (k : Color) (w : Word) :
    (cfg.opsFrom k w).countP DrawOp.isTranslate = w.count 'F'+w.count 'G' := by
  have hcount : (cfg.opsFrom k w).countP DrawOp.isTranslate =
      w.countP fun c => c == 'F' || c == 'G' := by
    refine countP_opsFrom (fun k c => ?_) k w
    unfold opsOf
    split <;> simp_all [DrawOp.isTranslate,List.countP_cons]
  rw [hcount,Word.countP_either (by decide)]

theorem countP_trace {cfg : Config} {P : DrawOp → Bool} (hsave : P .save = false)
    (hrestore : P .restore = false) (hhead : headOps.countP P = 0) :
    cfg.trace.countP P = (cfg.opsFrom cfg.color (executed cfg.instructions)).countP P := by
  have hh : cfg.head.countP P = 0 := by
    unfold head
    split
    · exact hhead
    · rfl
  rw [trace,DrawOp.enclosed,body]
  simp [hsave,hrestore,hh,List.countP_replicate]

end Config

/-- A pass saves, does for each symbol carried out what the symbol asks for, draws the head if it is
wanted and nothing was refused, and restores once for each bracket still open and once more. It
calls a surface of any kind, in any state, in this way and in no other; on a canvas the calls are
recorded. So there is a line for each `F`, a translation for each `F` or `G`, and a restore without
its save for each stray bracket. -/
theorem renderOn_calls (t : Turtle) :
    let cfg := t.config
    let p := executed cfg.instructions
    let calls := DrawOp.save::(cfg.opsFrom cfg.color p ++ cfg.head ++
      List.replicate (Word.unclosed p+1) .restore)
    (∀ c : Canvas, Session.render Canvas.draw cfg c = (t.renderOn c).2 ∧
      (t.renderOn c).2.1.ops.toList = c.ops.toList ++ calls) ∧
    (∀ (σ : Type) (call : σ → DrawOp → σ) (x : σ),
      (Session.render call cfg x).1 = calls.foldl call x) ∧
    calls.countP DrawOp.isLine = p.count 'F' ∧
    calls.countP DrawOp.isTranslate = p.count 'F'+p.count 'G' ∧
    calls.count .restore = calls.count .save+(Word.tally p).stray := by
  intro cfg p calls
  have hcalls : calls = cfg.trace := by
    rw [Config.trace,DrawOp.enclosed,Config.tally_body,Word.opened_tally,Config.body]
    rfl
  rw [hcalls]
  refine ⟨fun c => ⟨?_,?_⟩,fun σ call x => ?_,?_,?_,?_⟩
  · exact Session.render_draw cfg c
  · show (cfg.render c).canvas.ops.toList = _
    rw [Config.canvas_render,Canvas.toList_ops_drawAll]
  · rw [Session.render_eq]
  · rw [Config.countP_trace rfl rfl rfl,Config.countP_isLine_opsFrom]
  · rw [Config.countP_trace rfl rfl rfl,Config.countP_isTranslate_opsFrom]
  · rw [Config.trace,DrawOp.count_enclosed,Config.tally_body]

end Turtle
end Lindenmayer
