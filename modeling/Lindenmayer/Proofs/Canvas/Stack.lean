import Lindenmayer.Canvas.Scope
import Lindenmayer.Proofs.Bracket.Tally

/-! What any drawing does to the stack of saved frames: on top lie the saves still open, below them
the frames that were there before, without those that stray restores took. -/

namespace Lindenmayer

namespace DrawOp

def brackets (ops : List DrawOp) : List Bracket := ops.filterMap Bracket.ofOp?

def tally (ops : List DrawOp) : Tally := Tally.zero.readAll (brackets ops)

@[simp] theorem brackets_nil : brackets [] = [] := rfl
@[simp] theorem brackets_append (ops more : List DrawOp) :
    brackets (ops++more) = brackets ops ++ brackets more := by simp [brackets]
@[simp] theorem brackets_save (ops : List DrawOp) :
    brackets (.save::ops) = .opening::brackets ops := rfl
@[simp] theorem brackets_restore (ops : List DrawOp) :
    brackets (.restore::ops) = .closing::brackets ops := rfl
@[simp] theorem brackets_restores (n : Nat) :
    brackets (List.replicate n .restore) = List.replicate n .closing := by
  induction n with
  | zero => rfl
  | succ n ih => simp [List.replicate_succ,ih]

@[simp] theorem tally_nil : tally [] = .zero := rfl
theorem tally_append (ops more : List DrawOp) :
    tally (ops++more) = (tally ops).readAll (brackets more) := by simp [tally]

theorem count_brackets (ops : List DrawOp) (b : Bracket) :
    (brackets ops).count b = ops.count b.op :=
  Bracket.count_filterMap (fun _ => Bracket.ofOp?_eq_some_iff) ops

/-- All that a scope around some operations draws, if no other save or restore goes through it. -/
def enclosed (ops : List DrawOp) : List DrawOp :=
  .save::ops ++ List.replicate ((tally ops).opened+1) .restore

theorem tally_enclosed (ops : List DrawOp) : tally (enclosed ops) = ⟨(tally ops).stray,0⟩ := by
  have h : tally (enclosed ops) = ((Tally.zero.read .opening).readAll (brackets ops)).readAll
      (List.replicate ((tally ops).opened+1) .closing) := by simp [enclosed,tally]
  rw [h,Tally.readAll_eq (Tally.zero.read .opening),Tally.readAll_eq _ (List.replicate _ _)]
  simp [Tally.read,tally]
  omega

theorem count_enclosed (ops : List DrawOp) :
    (enclosed ops).count .restore = (enclosed ops).count .save+(tally ops).stray := by
  have h := Tally.count_readAll .zero (brackets (enclosed ops))
  rw [← tally,tally_enclosed,count_brackets,count_brackets] at h
  simpa [Bracket.op] using h

end DrawOp

namespace Canvas
open DrawOp

@[simp] theorem saved_perform_save (c : Canvas) : (c.perform .save).saved = c.frame::c.saved := rfl
@[simp] theorem frame_perform_save (c : Canvas) : (c.perform .save).frame = c.frame := rfl
@[simp] theorem saved_perform_restore (c : Canvas) :
    (c.perform .restore).saved = c.saved.tail := by
  rw [perform]; cases h : c.saved <;> simp [h]
@[simp] theorem frame_perform_restore (c : Canvas) :
    (c.perform .restore).frame = c.saved.head?.getD c.frame := by
  rw [perform]; cases h : c.saved <;> simp
theorem saved_perform_of_none (c : Canvas) {op : DrawOp} (h : Bracket.ofOp? op = none) :
    (c.perform op).saved = c.saved := by
  cases op <;> first | rfl | simp [Bracket.ofOp?] at h

@[simp] theorem saved_drawAll_restores (c : Canvas) (n : Nat) :
    (c.drawAll (List.replicate n .restore)).saved = c.saved.drop n := by
  induction n generalizing c with
  | zero => rfl
  | succ n ih => simp [List.replicate_succ,ih]

theorem drop_saved_drawAll (c : Canvas) (ops : List DrawOp) :
    (c.drawAll ops).saved.drop (tally ops).opened = c.saved.drop (tally ops).stray ∧
      (tally ops).opened ≤ (c.drawAll ops).saved.length := by
  induction ops using List.reverseRecOn with
  | nil => simp
  | append_singleton ops op ih =>
    obtain ⟨hdrop,hle⟩ := ih
    rw [drawAll_append,tally_append]
    generalize c.drawAll ops = b at hdrop hle ⊢
    generalize tally ops = t at hdrop hle ⊢
    cases hk : Bracket.ofOp? op with
    | none => simpa [brackets,hk,saved_perform_of_none b hk] using ⟨hdrop,hle⟩
    | some k =>
      cases op <;> simp [Bracket.ofOp?] at hk
      case save => simpa [Tally.read] using ⟨hdrop,hle⟩
      case restore =>
        by_cases ho : t.opened = 0
        · rw [ho,List.drop_zero] at hdrop
          simp [Tally.read,ho,hdrop]
        · obtain ⟨n,hn⟩ := Nat.exists_eq_succ_of_ne_zero ho
          rw [hn] at hdrop hle
          simp [Tally.read,hn,hdrop]
          omega

theorem saved_drawAll_enclosed (c : Canvas) (ops : List DrawOp) :
    (c.drawAll (enclosed ops)).saved = c.saved.drop (tally ops).stray := by
  have hh := (drop_saved_drawAll (c.draw .save) ops).1
  rw [enclosed,List.replicate_succ',List.cons_append,drawAll_cons,drawAll_append,drawAll_append]
  simp [hh]

/-- A scope with `u` stray restores ends in the frame it began in if `u = 0`, and else in the
`u`-th of the frames saved before. -/
theorem frame_drawAll_enclosed (c : Canvas) (ops : List DrawOp) {f : Frame}
    (h : (c.frame::c.saved)[(tally ops).stray]? = some f) :
    (c.drawAll (enclosed ops)).frame = f := by
  have hh := (drop_saved_drawAll (c.draw .save) ops).1
  rw [enclosed,List.replicate_succ',List.cons_append,drawAll_cons,drawAll_append,drawAll_append]
  simp [hh,List.head?_drop,h]

/-- A scope without stray restores leaves all as it was but for what is drawn. -/
theorem drawAll_enclosed_of_stray_zero (c : Canvas) {ops : List DrawOp}
    (h : (tally ops).stray = 0) :
    (c.drawAll (enclosed ops)).frame = c.frame ∧ (c.drawAll (enclosed ops)).saved = c.saved := by
  refine ⟨frame_drawAll_enclosed c ops ?_,?_⟩
  · simp [h]
  · simp [saved_drawAll_enclosed,h]

end Canvas

end Lindenmayer
