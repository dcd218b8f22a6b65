import Lindenmayer.Proofs.Canvas.Stack

/-! Scopes within scopes. A scope in which no restore goes further than its own saves gives back the
canvas with the frame and the stack that it found, however many saves are still open in it, because
every scope within it does the same. -/

namespace Lindenmayer

theorem DrawOp.readAll_enclosed {ops : List DrawOp} (h : (tally ops).stray = 0) (t : Tally) :
    t.readAll (brackets (enclosed ops)) = t := by
  have htally := tally_enclosed ops
  rw [h,tally] at htally
  rw [Tally.readAll_eq,htally]
  simp

namespace Scope

/-- What is done with a scope while it is open. -/
inductive Call
  | draw (op : DrawOp)
  | save
  | restore
  /-- Another scope is entered on the same canvas, used, and left. -/
  | within (calls : List Call)

mutual

def Call.perform : Call → Scope → Scope
  | .draw op,s => s.draw op
  | .save,s => s.save
  | .restore,s => s.restore
  | .within p,s => { s with canvas := ((enter s.canvas).run p).leave }

def run : Scope → List Call → Scope
  | s,[] => s
  | s,x::p => (x.perform s).run p

end

@[simp] theorem run_nil (s : Scope) : s.run [] = s := rfl
@[simp] theorem run_cons (s : Scope) (x : Call) (p : List Call) :
    s.run (x::p) = (x.perform s).run p := rfl

mutual

def Call.trace : Call → List DrawOp
  | .draw op => [op]
  | .save => [.save]
  | .restore => [.restore]
  | .within p => DrawOp.enclosed (traceAll p)

def traceAll : List Call → List DrawOp
  | [] => []
  | x::p => x.trace ++ traceAll p

end

@[simp] theorem traceAll_nil : traceAll [] = [] := rfl
@[simp] theorem traceAll_cons (x : Call) (p : List Call) :
    traceAll (x::p) = x.trace ++ traceAll p := rfl
@[simp] theorem traceAll_append (p q : List Call) :
    traceAll (p++q) = traceAll p ++ traceAll q := by
  induction p with
  | nil => rfl
  | cons x p ih => simp [ih]

/-- Of `d` saves open before the calls, `e` saves are open after them; a restore is called only if
there is one open, and the canvas is saved and restored in no other way. The scopes within obey the
same rules, each for itself. -/
inductive Paired : Nat → List Call → Nat → Prop
  | nil {d} : Paired d [] d
  | draw {d op p e} : Bracket.ofOp? op = none → Paired d p e → Paired d (.draw op::p) e
  | save {d p e} : Paired (d+1) p e → Paired d (.save::p) e
  | restore {d p e} : Paired d p e → Paired (d+1) (.restore::p) e
  | within {d q k p e} : Paired 0 q k → Paired d p e → Paired d (.within q::p) e

def Call.isSave : Call → Bool
  | .save => true
  | _ => false

def Call.isRestore : Call → Bool
  | .restore => true
  | _ => false

/-- The last save of `u` that is still open comes right after `v`. -/
def LastOpen (u v : List Call) : Prop := ∃ w, u = v ++ .save::w ∧ Paired 0 w 0

variable {d e k : Nat} {p q u v : List Call}

namespace Paired

theorem append (hp : Paired d p k) (hq : Paired k q e) : Paired d (p++q) e := by
  induction hp with
  | nil => exact hq
  | draw hop _ ih => exact .draw hop (ih hq)
  | save _ ih => exact .save (ih hq)
  | restore _ ih => exact .restore (ih hq)
  | within hi _ _ ih => exact .within hi (ih hq)

theorem split (h : Paired d (p++q) e) : ∃ k, Paired d p k ∧ Paired k q e := by
  induction p generalizing d with
  | nil => exact ⟨d,.nil,h⟩
  | cons x p ih =>
    cases h with
    | draw hop h => exact (ih h).imp fun _ hk => ⟨.draw hop hk.1,hk.2⟩
    | save h => exact (ih h).imp fun _ hk => ⟨.save hk.1,hk.2⟩
    | restore h => exact (ih h).imp fun _ hk => ⟨.restore hk.1,hk.2⟩
    | within hi h => exact (ih h).imp fun _ hk => ⟨.within hi hk.1,hk.2⟩

theorem add (h : Paired d p e) (n : Nat) : Paired (d+n) p (e+n) := by
  induction h with
  | nil => exact .nil
  | draw hop _ ih => exact .draw hop ih
  | @save d p e _ ih =>
    rw [Nat.add_right_comm] at ih
    exact .save ih
  | @restore d p e _ ih =>
    rw [Nat.add_right_comm]
    exact .restore ih
  | within hi _ _ ih => exact .within hi ih

theorem readAll_trace (h : Paired d p e) (n : Nat) :
    (Tally.mk n d).readAll (DrawOp.brackets (traceAll p)) = ⟨n,e⟩ := by
  induction h generalizing n with
  | nil => rfl
  | @draw d op p e hop _ ih => simpa [Call.trace,DrawOp.brackets,hop] using ih n
  | save _ ih => exact ih n
  | restore _ ih => exact ih n
  | @within d q k p e _ _ ihq ih =>
    have hstray : (DrawOp.tally (traceAll q)).stray = 0 := congrArg Tally.stray (ihq 0)
    rw [traceAll_cons,Call.trace,DrawOp.brackets_append,Tally.readAll_append,
      DrawOp.readAll_enclosed hstray,ih]

theorem tally_trace (h : Paired 0 p e) : DrawOp.tally (traceAll p) = ⟨0,e⟩ := h.readAll_trace 0

theorem leave_traced (h : Paired 0 p e) (c : Canvas) :
    (Scope.mk ((c.draw .save).drawAll (traceAll p)) e).leave =
      c.drawAll (DrawOp.enclosed (traceAll p)) := by
  rw [leave,DrawOp.enclosed,h.tally_trace,List.cons_append,Canvas.drawAll_cons,
    Canvas.drawAll_append]

/-- The calls draw their trace, and the scope counts the saves still open. -/
theorem run_eq (h : Paired d p e) (c : Canvas) :
    (Scope.mk c d).run p = ⟨c.drawAll (traceAll p),e⟩ := by
  induction h generalizing c with
  | nil => rfl
  | draw _ _ ih => exact ih _
  | save _ ih => exact ih _
  | restore _ ih => exact ih _
  | @within d q k p e hq _ ihq ih =>
    rw [run_cons,Call.perform,enter,ihq,hq.leave_traced,ih,traceAll_cons,Call.trace,
      Canvas.drawAll_append]

theorem leave_run_eq (h : Paired 0 p e) (c : Canvas) :
    ((enter c).run p).leave = c.drawAll (DrawOp.enclosed (traceAll p)) := by
  rw [enter,h.run_eq,h.leave_traced]

theorem count_saves (h : Paired d p e) :
    d+p.countP Call.isSave = e+p.countP Call.isRestore := by
  induction h with
  | nil => rfl
  | draw _ _ ih | within _ _ _ ih => simpa [Call.isSave,Call.isRestore] using ih
  | save _ ih | restore _ ih =>
    simp only [List.countP_cons,Call.isSave,Call.isRestore,if_true,Bool.false_eq_true,if_false]
    omega

/-- If saves are open after the calls, one of these came last, and what follows it closes all that it
opens. -/
theorem exists_lastOpen (h : Paired 0 u (e+1)) : ∃ v, Paired 0 v e ∧ LastOpen u v := by
  induction hn : u.length using Nat.strongRecOn generalizing u e with
  | ind n ih =>
    subst hn
    rcases u.eq_nil_or_concat with rfl | ⟨u,x,rfl⟩
    · cases h
    rw [List.concat_eq_append] at h ih ⊢
    obtain ⟨k,hu,hx⟩ := h.split
    have hshort : u.length < (u++[x]).length := by simp
    cases hx with
    | draw hop hnil =>
      cases hnil
      obtain ⟨v,hv,w,rfl,hw⟩ := ih _ hshort hu rfl
      exact ⟨v,hv,w++[.draw _],by simp,hw.append (.draw hop .nil)⟩
    | within hi hnil =>
      cases hnil
      obtain ⟨v,hv,w,rfl,hw⟩ := ih _ hshort hu rfl
      exact ⟨v,hv,w++[.within _],by simp,hw.append (.within hi .nil)⟩
    | save hnil =>
      cases hnil
      exact ⟨u,hu,[],rfl,.nil⟩
    | restore hnil =>
      cases hnil
      -- The restore closes the last save open before it, so the one sought lies further back.
      obtain ⟨t,ht,w,rfl,hw⟩ := ih _ hshort hu rfl
      obtain ⟨v,hv,w',rfl,hw'⟩ := ih t.length (by simp) ht rfl
      refine ⟨v,hv,w' ++ .save::w++[.restore],by simp,?_⟩
      exact (hw'.append (.save (hw.add 1))).append (.restore .nil)

theorem restore_eq (hu : Paired 0 u (e+1)) (hv : LastOpen u v) (c : Canvas) :
    ((enter c).run u).restore.canvas.frame = ((enter c).run v).canvas.frame ∧
      ((enter c).run u).restore.canvas.saved = ((enter c).run v).canvas.saved := by
  obtain ⟨w,rfl,hw⟩ := hv
  obtain ⟨k,hv,-⟩ := hu.split
  -- The save, what follows it and the restore draw what a scope around what follows would draw.
  have hcanvas : ((enter c).run (v ++ .save::w)).restore.canvas =
      ((enter c).run v).canvas.drawAll (DrawOp.enclosed (traceAll w)) := by
    rw [enter,hu.run_eq,hv.run_eq,DrawOp.enclosed,hw.tally_trace]
    simp [Call.trace]
  rw [hcanvas]
  exact Canvas.drawAll_enclosed_of_stray_zero _ (congrArg Tally.stray hw.tally_trace)

end Paired

/-- The scopes that calls open if a scope entered on `c` is used for `p`: that scope itself and
those within it, each with its own calls and the canvas that it is entered on. -/
inductive Opens (p : List Call) (c : Canvas) : List Call → Canvas → Prop
  | self : Opens p c p c
  | within {before q after : List Call} {b : Canvas} :
    Opens p c (before ++ .within q::after) b → Opens p c q ((enter b).run before).canvas

theorem Opens.paired {c b : Canvas} (h : Opens p c q b) (hp : ∃ e, Paired 0 p e) :
    ∃ e, Paired 0 q e := by
  induction h with
  | self => exact hp
  | within _ ih =>
    obtain ⟨e,h⟩ := ih
    obtain ⟨k,-,h⟩ := h.split
    cases h with
    | within hq _ => exact ⟨_,hq⟩

theorem Opens.trans {b c d : Canvas} {q r : List Call} (h : Opens p c q b) (h' : Opens q b r d) :
    Opens p c r d := by
  induction h' with
  | self => exact h
  | within _ ih => exact .within ih

/-- A scope entered on `c` and used for `p`, and all scopes within it, restore only while their depth
is positive; their canvas is saved and restored in no other way. -/
def OwnSaves (p : List Call) (c : Canvas) : Prop := ∀ q b, Opens p c q b →
  (∀ op, .draw op ∈ q → Bracket.ofOp? op = none) ∧
    ∀ u v, q = u ++ .restore::v → 0 < ((enter b).run u).depth

theorem Paired.exists_rest {p : List Call} {c : Canvas}
    (hdraw : ∀ op, .draw op ∈ p → Bracket.ofOp? op = none)
    (hpos : ∀ u v, p = u ++ .restore::v → 0 < ((enter c).run u).depth)
    (hwithin : ∀ q, .within q ∈ p → ∃ k, Paired 0 q k) {u v : List Call} {d : Nat}
    (hp : p = u++v) (hu : Paired 0 u d) : ∃ e, Paired d v e := by
  induction v generalizing u d with
  | nil => exact ⟨d,.nil⟩
  | cons x v ih =>
    have hp' : p = (u++[x])++v := by rw [hp,List.append_assoc]; rfl
    have hx : x ∈ p := by simp [hp]
    cases x with
    | draw op =>
      have hop : Bracket.ofOp? op = none := hdraw op hx
      exact (ih hp' (hu.append (.draw hop .nil))).imp fun _ => .draw hop
    | save => exact (ih hp' (hu.append (.save .nil))).imp fun _ => .save
    | restore =>
      have hopen : 0 < ((enter c).run u).depth := hpos u v hp
      rw [enter,hu.run_eq] at hopen
      cases d with
      | zero => exact absurd hopen (Nat.lt_irrefl 0)
      | succ k => exact (ih hp' (hu.append (.restore .nil))).imp fun _ => .restore
    | within q =>
      obtain ⟨k,hq⟩ := hwithin q hx
      exact (ih hp' (hu.append (.within hq .nil))).imp fun _ => .within hq

theorem exists_paired {p : List Call} {c : Canvas} (h : OwnSaves p c) : ∃ e, Paired 0 p e := by
  induction hn : sizeOf p using Nat.strongRecOn generalizing p c with
  | ind n ih =>
    subst hn
    obtain ⟨hdraw,hpos⟩ := h p c .self
    refine Paired.exists_rest hdraw hpos (fun q hq => ?_) (List.nil_append p).symm .nil
    have hsize : sizeOf q < sizeOf p := by
      have hlt := List.sizeOf_lt_of_mem hq
      rw [Call.within.sizeOf_spec] at hlt
      omega
    obtain ⟨before,after,rfl⟩ := List.append_of_mem hq
    exact ih _ hsize (fun r b hr => h r b (Opens.trans (.within .self) hr)) rfl

/-- What the depths say while the calls are made can be said before, by counting. -/
theorem ownSaves_iff {p : List Call} {c : Canvas} : OwnSaves p c ↔ ∃ e, Paired 0 p e := by
  constructor
  · exact exists_paired
  · intro hp q b hq
    obtain ⟨e,he⟩ := hq.paired hp
    refine ⟨fun op hop => ?_,fun u v hv => ?_⟩
    · obtain ⟨u,v,rfl⟩ := List.append_of_mem hop
      obtain ⟨k,-,hk⟩ := he.split
      cases hk with
      | draw hnone _ => exact hnone
    · subst hv
      obtain ⟨k,hu,hk⟩ := he.split
      cases hk with
      | restore _ =>
        rw [enter,hu.run_eq]
        exact Nat.succ_pos _

theorem OwnSaves.leave_eq {p : List Call} {c : Canvas} (hp : OwnSaves p c) :
    (DrawOp.tally (traceAll p)).stray = 0 ∧
      ((enter c).run p).leave = c.drawAll (DrawOp.enclosed (traceAll p)) := by
  obtain ⟨e,he⟩ := ownSaves_iff.1 hp
  exact ⟨congrArg Tally.stray he.tally_trace,he.leave_run_eq c⟩

/-- Let calls restore in each scope only while its depth is positive, and leave any number of saves
open. When the outermost scope is left, the canvas has the transform, the style and the stack that
it had before, and as many saves as restores were drawn. At each point of each scope its depth is
the number of its saves less that of its restores. A restore there closes a save: the last one still
open, whose transform and style it brings back. -/
theorem leave_run {p : List Call} {c : Canvas} (hp : OwnSaves p c) :
    let after := ((enter c).run p).leave
    (after.transform = c.transform ∧ after.style = c.style ∧ after.saved = c.saved) ∧
    (∃ ops, after.ops.toList = c.ops.toList ++ ops ∧ ops.count .save = ops.count .restore) ∧
    ∀ q b u v, Opens p c q b → q = u++v →
      let s := (enter b).run u
      s.depth+u.countP Call.isRestore = u.countP Call.isSave ∧
      ∀ w, v = .restore::w → s.nested = true ∧ (∃ t, LastOpen u t) ∧
        ∀ t, LastOpen u t →
          s.restore.canvas.transform = ((enter b).run t).canvas.transform ∧
          s.restore.canvas.style = ((enter b).run t).canvas.style := by
  intro after
  obtain ⟨hstray,hafter⟩ := hp.leave_eq
  obtain ⟨hframe,hsaved⟩ := Canvas.drawAll_enclosed_of_stray_zero c hstray
  rw [show after = _ from hafter]
  refine ⟨⟨congrArg Frame.transform hframe,congrArg Frame.style hframe,hsaved⟩,
    ⟨_,Canvas.toList_ops_drawAll _ _,?_⟩,?_⟩
  · rw [DrawOp.count_enclosed,hstray,Nat.add_zero]
  · rintro q b u v hq rfl s
    obtain ⟨k,hk⟩ := hq.paired (ownSaves_iff.1 hp)
    obtain ⟨d,hu,hv⟩ := hk.split
    have hs : s.depth = d := congrArg Scope.depth (hu.run_eq _)
    refine ⟨?_,?_⟩
    · rw [hs,← hu.count_saves,Nat.zero_add]
    · rintro w rfl
      cases hv with
      | restore _ =>
        refine ⟨by simp [nested,hs],hu.exists_lastOpen.imp fun _ ht => ht.2,fun t ht => ?_⟩
        have hback := (hu.restore_eq ht b).1
        exact ⟨congrArg Frame.transform hback,congrArg Frame.style hback⟩

/-- The first save is restored after a scope within that leaves a save open, as does the scope within
that one; two saves of the outer scope are open at the end. -/
theorem leave_run_nested :
    let inner : List Call := [.draw .noStroke,.save,.within [.save,.save],.save,.restore]
    let p : List Call := [.save,.draw (.translate ⟨1,0⟩),.within inner,.restore,.save,.save]
    let c := (Canvas.empty.draw .save).draw (.rotate 1)
    let b := ((enter c).run [.save,.draw (.translate ⟨1,0⟩)]).canvas
    let s := (enter c).run [.save,.draw (.translate ⟨1,0⟩),.within inner]
    let t := (enter b).run [.draw .noStroke,.save,.within [.save,.save],.save]
    (OwnSaves p c ∧ Opens p c inner b) ∧ ((enter c).run p).leave.saved = [.initial] ∧
      s.restore.canvas.transform = c.transform ∧ t.nested = true ∧ t.depth = 2 := by
  intro inner p c b s t
  have hinner : Paired 0 inner 1 :=
    .draw rfl (.save (.within (.save (.save .nil)) (.save (.restore .nil))))
  have hp : OwnSaves p c := ownSaves_iff.2
    ⟨2,.save (.draw rfl (.within hinner (.restore (.save (.save .nil)))))⟩
  have hopens : Opens p c inner b :=
    @Opens.within _ _ [.save,.draw (.translate ⟨1,0⟩)] inner [.restore,.save,.save] c .self
  have hlast : LastOpen [.save,.draw (.translate ⟨1,0⟩),.within inner] [] :=
    ⟨_,rfl,.draw rfl (.within hinner .nil)⟩
  obtain ⟨⟨-,-,hsaved⟩,-,hpoints⟩ := leave_run hp
  obtain ⟨-,hrestore⟩ := hpoints p c [.save,.draw (.translate ⟨1,0⟩),.within inner] _ .self rfl
  obtain ⟨hdepth,hnested⟩ := hpoints inner b
    [.draw .noStroke,.save,.within [.save,.save],.save] _ hopens rfl
  exact ⟨⟨hp,hopens⟩,hsaved,((hrestore _ rfl).2.2 [] hlast).1,(hnested _ rfl).1,hdepth⟩

end Scope

/-! ### Scopes one after the other

Whoever enters and leaves scopes step by step has those that are open on a stack. The calls of a
scope, with the scopes within it, come to the same there. -/

namespace Nest

/-- What can be done with the innermost scope, or with the canvas under it. -/
inductive Event
  | enter
  | draw (op : DrawOp)
  | save
  | restore
  | leave

def handle (n : Nest) : Event → Nest
  | .enter => n.enter
  | .draw op => n.draw op
  | .save => n.within Scope.save
  | .restore => n.within Scope.restore
  | .leave => n.leave

def run (n : Nest) (es : List Event) : Nest := es.foldl handle n

@[simp] theorem run_nil (n : Nest) : n.run [] = n := rfl
@[simp] theorem run_cons (n : Nest) (e : Event) (es : List Event) :
    n.run (e::es) = (n.handle e).run es := rfl
@[simp] theorem run_append (n : Nest) (es fs : List Event) :
    n.run (es++fs) = (n.run es).run fs := List.foldl_append

end Nest

namespace Scope

mutual

def Call.events : Call → List Nest.Event
  | .draw op => [.draw op]
  | .save => [.save]
  | .restore => [.restore]
  | .within p => .enter::eventsAll p ++ [.leave]

def eventsAll : List Call → List Nest.Event
  | [] => []
  | x::p => x.events ++ eventsAll p

end

/-- The scope with others around it, of which only the depths are left. -/
def inside (s : Scope) (depths : List Nat) : Nest := ⟨s.canvas,s.depth::depths⟩

theorem run_within_of {p : List Call}
    (hp : ∀ (s : Scope) ds, (s.inside ds).run (eventsAll p) = (s.run p).inside ds) (n : Nest) :
    n.run (Call.within p).events = ⟨((enter n.canvas).run p).leave,n.depths⟩ := by
  have hinner : n.enter.run (eventsAll p) = ((enter n.canvas).run p).inside n.depths :=
    hp (enter n.canvas) n.depths
  rw [Call.events,List.cons_append,Nest.run_cons,Nest.handle,Nest.run_append,hinner]
  rfl

mutual

theorem Call.run_events (x : Call) (s : Scope) (ds : List Nat) :
    (s.inside ds).run x.events = (x.perform s).inside ds := by
  match x with
  | .draw _ | .save | .restore => rfl
  | .within p => exact run_within_of (fun s ds => run_eventsAll p s ds) (s.inside ds)

theorem run_eventsAll (p : List Call) (s : Scope) (ds : List Nat) :
    (s.inside ds).run (eventsAll p) = (s.run p).inside ds := by
  match p with
  | [] => rfl
  | x::p => rw [eventsAll,Nest.run_append,x.run_events,run_eventsAll p,run_cons]

end

/-- A scope that is entered, used and left step by step is one call, whatever scopes are open. -/
theorem run_within (p : List Call) (n : Nest) :
    n.run (Call.within p).events = ⟨((enter n.canvas).run p).leave,n.depths⟩ :=
  run_within_of (run_eventsAll p) n

/-- If no scope restores further than its own saves, the scopes that are open find the frame and the
stack as they left them, and their own saves. -/
theorem OwnSaves.run_within {p : List Call} {n : Nest} (hp : OwnSaves p n.canvas) :
    let after := n.run (Call.within p).events
    after.canvas.frame = n.canvas.frame ∧ after.canvas.saved = n.canvas.saved ∧
      after.depths = n.depths := by
  obtain ⟨hstray,hleave⟩ := hp.leave_eq
  obtain ⟨hframe,hsaved⟩ := Canvas.drawAll_enclosed_of_stray_zero n.canvas hstray
  rw [Scope.run_within,hleave]
  exact ⟨hframe,hsaved,rfl⟩

end Scope
end Lindenmayer
