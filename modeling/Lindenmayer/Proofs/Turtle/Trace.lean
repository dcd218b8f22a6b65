import Lindenmayer.Proofs.Canvas.Stack
import Lindenmayer.Turtle.Basic
import Mathlib.Data.List.TakeWhile

/-! What a pass of the turtle draws: a list of operations that its configuration alone decides,
whatever the canvas holds. -/

namespace Lindenmayer.Turtle

/-- The symbols that stand for an action. -/
def alphabet : Word := ['F','G','+','-','[',']']

theorem mem_alphabet_iff {c : Symbol} : c ∈ alphabet ↔ ∃ a, Action.ofSymbol? c = some a := by
  constructor
  · intro h
    simp only [alphabet,List.mem_cons,List.not_mem_nil,or_false] at h
    rcases h with rfl | rfl | rfl | rfl | rfl | rfl <;> exact ⟨_,rfl⟩
  · rintro ⟨a,ha⟩
    rw [Action.ofSymbol?_eq_some_iff.1 ha]
    cases a <;> simp [alphabet,Action.symbol]

/-- What is carried out of a word: all that stands before the first symbol without an action. -/
def executed (w : Word) : Word := w.takeWhile (· ∈ alphabet)

/-- The first symbol without an action. -/
def refused? (w : Word) : Option Symbol := w.find? (· ∉ alphabet)

theorem refused?_eq_none_iff {w : Word} : refused? w = none ↔ ∀ c ∈ w, c ∈ alphabet := by
  simp [refused?]

theorem executed_of_alphabet {w : Word} (h : ∀ c ∈ w, c ∈ alphabet) : executed w = w :=
  List.takeWhile_eq_self_iff.2 fun c hc => decide_eq_true (h c hc)

namespace Pass

/-- Acts on one symbol; there is nothing to do for one without an action. -/
def read (cfg : Config) (p : Pass) (c : Symbol) : Pass :=
  match Action.ofSymbol? c with
  | some a => p.act cfg a
  | none => p

def readAll (cfg : Config) (p : Pass) (w : Word) : Pass := w.foldl (read cfg) p

@[simp] theorem readAll_nil (cfg : Config) (p : Pass) : p.readAll cfg [] = p := rfl
@[simp] theorem readAll_append (cfg : Config) (p : Pass) (v w : Word) :
    p.readAll cfg (v++w) = (p.readAll cfg v).readAll cfg w := by simp [readAll]
@[simp] theorem readAll_singleton (cfg : Config) (p : Pass) (c : Symbol) :
    p.readAll cfg [c] = p.read cfg c := rfl

theorem follow_eq (cfg : Config) (w : Word) (p : Pass) :
    follow cfg w p = (p.readAll cfg (executed w),refused? w) := by
  induction w generalizing p with
  | nil => rfl
  | cons c w ih =>
    by_cases hc : c ∈ alphabet
    · obtain ⟨a,ha⟩ := mem_alphabet_iff.1 hc
      have hr : p.read cfg c = p.act cfg a := by simp [read,ha]
      simp only [follow,ha,ih]
      simp [executed,refused?,hc,readAll,hr]
    · have hn : Action.ofSymbol? c = none :=
        Option.eq_none_iff_forall_ne_some.2 fun a ha => hc (mem_alphabet_iff.2 ⟨a,ha⟩)
      simp [follow_invalid cfg hn,executed,refused?,hc]

end Pass

namespace Config

/-- The color of the pen when a symbol has been met. -/
def colorAfter (cfg : Config) (k : Color) (c : Symbol) : Color :=
  if c = 'F' then Pass.nextColor cfg k else k

def colorThrough (cfg : Config) (k : Color) (w : Word) : Color := w.foldl cfg.colorAfter k

/-- What one symbol draws with a pen of color `k`. -/
def opsOf (cfg : Config) (k : Color) : Symbol → List DrawOp
  | 'F' => [.strokeColor k,.strokeWeight cfg.weight,.line .zero (Pass.ahead cfg),
      .translate (Pass.ahead cfg)]
  | 'G' => [.translate (Pass.ahead cfg)]
  | '+' => [.rotate cfg.rightTurn]
  | '-' => [.rotate (-cfg.leftTurn)]
  | '[' => [.save]
  | ']' => [.restore]
  | _ => []

theorem opsOf_eq_nil (cfg : Config) {c : Symbol} (h : Action.ofSymbol? c = none) (k : Color) :
    cfg.opsOf k c = [] := by
  unfold opsOf; split <;> first | rfl | simp [Action.ofSymbol?] at h

/-- What a word draws when the pen has the color `k` before it. -/
def opsFrom (cfg : Config) : Color → Word → List DrawOp
  | _,[] => []
  | k,c::w => cfg.opsOf (cfg.colorAfter k c) c ++ cfg.opsFrom (cfg.colorAfter k c) w

@[simp] theorem opsFrom_append (cfg : Config) (k : Color) (v w : Word) :
    cfg.opsFrom k (v++w) = cfg.opsFrom k v ++ cfg.opsFrom (cfg.colorThrough k v) w := by
  induction v generalizing k with
  | nil => rfl
  | cons c v ih => simp [opsFrom,ih,colorThrough]
@[simp] theorem opsFrom_singleton (cfg : Config) (k : Color) (c : Symbol) :
    cfg.opsFrom k [c] = cfg.opsOf (cfg.colorAfter k c) c := by simp [opsFrom]

theorem brackets_opsOf (cfg : Config) (k : Color) (c : Symbol) :
    DrawOp.brackets (cfg.opsOf k c) = Word.brackets [c] := by
  unfold opsOf; split <;> try rfl
  rename_i ho hc
  have hn : Bracket.ofSymbol? c = none := Bracket.ofSymbol?_eq_none_iff.2 ⟨ho,hc⟩
  simp [Word.brackets_cons_of_none hn]

theorem brackets_opsFrom (cfg : Config) (k : Color) (w : Word) :
    DrawOp.brackets (cfg.opsFrom k w) = Word.brackets w := by
  induction w generalizing k with
  | nil => rfl
  | cons c w ih =>
    rw [opsFrom,DrawOp.brackets_append,brackets_opsOf,ih,← Word.brackets_append]
    rfl

/-- The mark where the turtle ends up. -/
def headOps : List DrawOp :=
  [.save,.noStroke,.fill .red,.triangle .zero ⟨-10,5⟩ ⟨-10,-5⟩,.restore]

/-- The head is drawn only if it is wanted and no symbol was refused. -/
def head (cfg : Config) : List DrawOp :=
  if cfg.showsHead ∧ refused? cfg.instructions = none then headOps else []

/-- What a pass draws within its scope. -/
def body (cfg : Config) : List DrawOp :=
  cfg.opsFrom cfg.color (executed cfg.instructions) ++ cfg.head

/-- Everything that a pass draws. -/
def trace (cfg : Config) : List DrawOp := DrawOp.enclosed cfg.body

theorem tally_body (cfg : Config) :
    DrawOp.tally cfg.body = Word.tally (executed cfg.instructions) := by
  have hhead (t : Tally) : t.readAll (DrawOp.brackets cfg.head) = t := by
    unfold head; split <;> rfl
  rw [body,DrawOp.tally_append,hhead,DrawOp.tally,brackets_opsFrom,Word.tally]

theorem drawAll_trace (cfg : Config) (c : Canvas) :
    c.drawAll cfg.trace =
      (((c.draw .save).drawAll (cfg.opsFrom cfg.color (executed cfg.instructions))).drawAll
        cfg.head).drawAll
        (List.replicate ((Word.tally (executed cfg.instructions)).opened+1) .restore) := by
  rw [trace,DrawOp.enclosed,tally_body,List.cons_append,Canvas.drawAll_cons,
    Canvas.drawAll_append,body,Canvas.drawAll_append]

end Config

namespace Pass
open Config

theorem color_read (cfg : Config) (p : Pass) (c : Symbol) :
    (p.read cfg c).color = cfg.colorAfter p.color c := by
  unfold read colorAfter
  cases ha : Action.ofSymbol? c with
  | none => rw [if_neg]; rintro rfl; simp [Action.ofSymbol?] at ha
  | some a => rw [Action.ofSymbol?_eq_some_iff.1 ha]; cases a <;> rfl

theorem scope_read (cfg : Config) (p : Pass) (c : Symbol) {t : Tally}
    (h : p.scope.depth = t.opened) :
    (p.read cfg c).scope = ⟨p.scope.canvas.drawAll (cfg.opsOf (cfg.colorAfter p.color c) c),
      (t.readAll (Word.brackets [c])).opened⟩ := by
  unfold read
  cases ha : Action.ofSymbol? c with
  | none =>
    have hb : Bracket.ofSymbol? c = none := by
      rw [Bracket.ofSymbol?_eq_none_iff]
      constructor <;> rintro rfl <;> simp [Action.ofSymbol?] at ha
    simp [opsOf_eq_nil cfg ha,Word.brackets_cons_of_none hb,← h]
  | some a =>
    have hpop : (t.read .closing).opened = t.opened-1 := by
      cases hd : t.opened <;> simp [Tally.read,hd]
    rw [Action.ofSymbol?_eq_some_iff.1 ha]
    cases a <;> simp only [act,draw,Scope.draw,Scope.save,Scope.restore,h]
    case pop => rw [← hpop]; rfl
    all_goals rfl

/-- The pass has drawn what the word draws, and its scope counts the brackets still open. -/
theorem readAll_start (cfg : Config) (c : Canvas) (w : Word) :
    (start cfg c).readAll cfg w =
      ⟨⟨(c.draw .save).drawAll (cfg.opsFrom cfg.color w),(Word.tally w).opened⟩,
        cfg.colorThrough cfg.color w⟩ := by
  induction w using List.reverseRecOn with
  | nil => rfl
  | append_singleton w x ih =>
    rw [readAll_append,readAll_singleton,ih,Pass.mk.injEq]
    constructor
    · rw [scope_read cfg _ x (t := Word.tally w) rfl,← Word.tally_append,opsFrom_append,
        opsFrom_singleton,Canvas.drawAll_append]
    · rw [color_read]; simp [colorThrough]

end Pass

namespace Config

theorem canvas_render (cfg : Config) (c : Canvas) :
    (cfg.render c).canvas = c.drawAll cfg.trace := by
  have hhead (b : Canvas) : drawHead b = b.drawAll headOps := rfl
  rw [drawAll_trace,render,Pass.follow_eq,Pass.readAll_start,head]
  cases hr : refused? cfg.instructions with
  | some bad => simp [Scope.leave]
  | none => cases cfg.showsHead <;> simp [Scope.leave,hhead]

theorem color_render (cfg : Config) (c : Canvas) :
    (cfg.render c).color = cfg.colorThrough cfg.color (executed cfg.instructions) := by
  rw [render,Pass.follow_eq,Pass.readAll_start]
  cases refused? cfg.instructions <;> rfl

theorem result_render (cfg : Config) (c : Canvas) :
    (cfg.render c).result = match refused? cfg.instructions with
      | some bad => .error (.invalidAction bad)
      | none => .ok () := by
  rw [render,Pass.follow_eq]
  cases refused? cfg.instructions <;> rfl

end Config
end Lindenmayer.Turtle
