import Lindenmayer.Proofs.Bracket.Trunk
import Lindenmayer.Proofs.Canvas.Record
import Lindenmayer.Proofs.Turtle.Trace

/-! Where the lines of a pass lie. Each line starts where the trunk of the symbols before it leads:
branches that are closed have left no trace. -/

namespace Lindenmayer.Turtle

namespace Config

/-- How a symbol moves the turtle's frame, seen from that frame. -/
def motion? (cfg : Config) : Symbol → Option Affine
  | 'F' | 'G' => some (.shift ⟨cfg.length,0⟩)
  | '+' => some (.rotation cfg.rightTurn)
  | '-' => some (.rotation (-cfg.leftTurn))
  | _ => none

/-- The turtle's frame after all motions of a word, one after the other, from the frame `m`. -/
def along (cfg : Config) (m : Affine) (w : Word) : Affine :=
  (w.filterMap cfg.motion?).foldl (· * ·) m

@[simp] theorem along_append (cfg : Config) (m : Affine) (v w : Word) :
    cfg.along m (v++w) = cfg.along (cfg.along m v) w := by simp [along]

theorem saved_opsOf (cfg : Config) (k : Color) {x : Symbol} (hx : Bracket.ofSymbol? x = none)
    (c : Canvas) : (c.drawAll (cfg.opsOf k x)).saved = c.saved := by
  have hh := (Canvas.drop_saved_drawAll c (cfg.opsOf k x)).1
  rwa [DrawOp.tally,brackets_opsOf,Word.brackets_cons_of_none hx] at hh

theorem transform_opsOf (cfg : Config) (k : Color) {x : Symbol} (hx : Bracket.ofSymbol? x = none)
    (c : Canvas) : (c.drawAll (cfg.opsOf k x)).transform = cfg.along c.transform [x] := by
  cases ha : Action.ofSymbol? x with
  | none =>
    have hm : cfg.motion? x = none := by
      unfold motion?; split <;> first | rfl | simp [Action.ofSymbol?] at ha
    simp [opsOf_eq_nil cfg ha,along,hm]
  | some a =>
    obtain rfl := Action.ofSymbol?_eq_some_iff.1 ha
    cases a <;> first | rfl | simp [Bracket.ofSymbol?,Action.symbol] at hx

theorem segments_opsOf (cfg : Config) (k : Color) (x : Symbol) (c : Canvas) :
    (c.drawAll (cfg.opsOf k x)).segments =
      if x = 'F' then c.segments.push ⟨c.transform.point .zero,c.transform.point (Pass.ahead cfg),
        some k,cfg.weight⟩ else c.segments := by
  cases ha : Action.ofSymbol? x with
  | none =>
    have hx : x ≠ 'F' := by rintro rfl; simp [Action.ofSymbol?] at ha
    simp [opsOf_eq_nil cfg ha,hx]
  | some a =>
    obtain rfl := Action.ofSymbol?_eq_some_iff.1 ha
    cases a <;> try rfl
    case pop => simp [opsOf,Action.symbol,Canvas.perform]; split <;> rfl

/-- The frame of the canvas is where the trunk of the word leads from `m`, and each frame saved for
a bracket still open is where the trunk will lead once the word has closed that bracket. -/
def OnTrunk (cfg : Config) (m : Affine) (w : Word) (c : Canvas) : Prop :=
  ∀ k ≤ (Word.tally w).opened,
    ((c.frame::c.saved)[k]?).map Frame.transform = some (cfg.along m (Word.trunkAfter k w))

theorem OnTrunk.transform {cfg : Config} {m : Affine} {w : Word} {c : Canvas}
    (h : OnTrunk cfg m w c) : c.transform = cfg.along m (Word.trunk w) := by
  simpa [Canvas.transform,Word.trunk] using h 0 (Nat.zero_le _)

theorem OnTrunk.read {cfg : Config} {m : Affine} {w : Word} {c : Canvas} (h : OnTrunk cfg m w c)
    (k : Color) {x : Symbol} (hx : (Word.tally (w++[x])).stray = 0) :
    OnTrunk cfg m (w++[x]) (c.drawAll (cfg.opsOf k x)) := by
  intro n hn
  rw [Word.tally_append] at hn hx
  by_cases ho : x = '['
  · subst ho
    cases n with
    | zero => simpa [opsOf] using h 0 (Nat.zero_le _)
    | succ n => simpa [opsOf] using h n (Nat.le_of_succ_le_succ hn)
  · by_cases hc : x = ']'
    · subst hc
      -- Without stray brackets there is an open one for it, and so a frame above the caller's.
      have hopen : (Word.tally w).opened ≠ 0 := by
        intro hz
        simp [Tally.read,hz] at hx
      have hn' : n+1 ≤ (Word.tally w).opened := by
        simp [Tally.read,hopen] at hn
        omega
      have hh := h (n+1) hn'
      have h₁ := h 1 (by omega)
      cases hs : c.saved with
      | nil => simp [hs] at h₁
      | cons f rest => simpa [opsOf,hs] using hh
    · have hnone := Bracket.ofSymbol?_eq_none_iff.2 ⟨ho,hc⟩
      rw [Word.brackets_cons_of_none hnone] at hn
      cases n with
      | zero =>
        have ht := transform_opsOf cfg k hnone c
        rw [h.transform] at ht
        rw [Word.trunkAfter_zero_symbol hnone,along_append]
        simpa [Canvas.transform,Word.trunk] using ht
      | succ n =>
        rw [Word.trunkAfter_succ_symbol hnone,List.getElem?_cons_succ,saved_opsOf cfg k hnone]
        simpa using h (n+1) hn

/-- One line for each `F` of the word, and each from where the trunk before it leads to one length
further on. -/
structure Lines (cfg : Config) (m : Affine) (w : Word) (drawn : List Segment) : Prop where
  length : drawn.length = w.count 'F'
  line : ∀ q, q++['F'] <+: w → ∃ s, drawn[q.count 'F']? = some s ∧
    s.start = (cfg.along m (Word.trunk q)).point ⟨0,0⟩ ∧
    s.finish = (cfg.along m (Word.trunk q)).point ⟨cfg.length,0⟩

theorem Lines.read_other {cfg : Config} {m : Affine} {w : Word} {drawn : List Segment}
    (h : Lines cfg m w drawn) {x : Symbol} (hx : x ≠ 'F') : Lines cfg m (w++[x]) drawn where
  length := by simp [h.length,hx]
  line q hq := by
    rcases List.prefix_concat_iff.1 hq with he | hq
    · exact absurd (List.append_inj_right' he rfl) (by simpa using Ne.symm hx)
    · exact h.line q hq

theorem Lines.read_line {cfg : Config} {m : Affine} {w : Word} {drawn : List Segment}
    (h : Lines cfg m w drawn) {s : Segment}
    (hs : s.start = (cfg.along m (Word.trunk w)).point ⟨0,0⟩)
    (hf : s.finish = (cfg.along m (Word.trunk w)).point ⟨cfg.length,0⟩) :
    Lines cfg m (w++['F']) (drawn++[s]) where
  length := by simp [h.length]
  line q hq := by
    rcases List.prefix_concat_iff.1 hq with he | hq
    · obtain rfl := List.append_inj_left' he rfl
      exact ⟨s,by simp [← h.length],hs,hf⟩
    · obtain ⟨r,hr,hh⟩ := h.line q hq
      exact ⟨r,by rw [List.getElem?_append_left (List.getElem?_eq_some_iff.1 hr).1]; exact hr,hh⟩

/-- A word without stray brackets keeps the canvas on its trunk and draws its lines along it. -/
theorem onTrunk_opsFrom (cfg : Config) (k : Color) (c : Canvas) {w : Word}
    (hw : (Word.tally w).stray = 0) :
    OnTrunk cfg c.transform w (c.drawAll (cfg.opsFrom k w)) ∧
      ∃ drawn, (c.drawAll (cfg.opsFrom k w)).segments.toList = c.segments.toList ++ drawn ∧
        Lines cfg c.transform w drawn := by
  induction w using List.reverseRecOn with
  | nil =>
    refine ⟨fun n hn => ?_,[],by simp [opsFrom],by simp,fun q hq => by simp at hq⟩
    obtain rfl := Nat.le_zero.1 hn
    rfl
  | append_singleton w x ih =>
    have hle := Tally.stray_le_stray_readAll (Word.tally w) (Word.brackets [x])
    rw [← Word.tally_append,hw] at hle
    obtain ⟨hon,drawn,hseg,hlines⟩ := ih (Nat.le_zero.1 hle)
    rw [opsFrom_append,Canvas.drawAll_append,opsFrom_singleton]
    refine ⟨hon.read _ hw,?_⟩
    rw [segments_opsOf,hon.transform]
    by_cases hx : x = 'F'
    · subst hx
      refine ⟨_,by rw [if_pos rfl,Array.toList_push,hseg,List.append_assoc],?_⟩
      exact hlines.read_line rfl rfl
    · exact ⟨drawn,by rw [if_neg hx,hseg],hlines.read_other hx⟩

end Config

theorem segments_render (cfg : Config) (c : Canvas) :
    (cfg.render c).canvas.segments.toList = ((c.draw .save).drawAll
      (cfg.opsFrom cfg.color (executed cfg.instructions))).segments.toList := by
  rw [Config.canvas_render,Config.drawAll_trace,← Canvas.drawAll_append]
  obtain ⟨drawn,hseg,hlen⟩ := Canvas.segments_drawAll
    ((c.draw .save).drawAll (cfg.opsFrom cfg.color (executed cfg.instructions)))
    (cfg.head ++ List.replicate ((Word.tally (executed cfg.instructions)).opened+1) .restore)
  have hnone : drawn.length = 0 := by
    rw [hlen,List.countP_append,List.countP_replicate,Config.head]
    split <;> rfl
  rw [hseg,List.length_eq_zero_iff.1 hnone,List.append_nil]

theorem executed_eq_self {v w : Word} (h : v <+: executed w) : executed v = v := by
  refine List.takeWhile_eq_self_iff.2 fun c hc => ?_
  exact List.mem_takeWhile_imp (p := (· ∈ alphabet)) (h.subset hc)

/-- Among the symbols carried out let no beginning close more brackets than it opens. Then a pass
draws one line for each `F`, in order. The line of an `F` lies where the trunk of the symbols before
it leads from the frame at entry, and right after it the turtle is at its far end. -/
theorem renderOn_lines (t : Turtle) (c : Canvas)
    (h : ∀ q, q <+: executed t.config.instructions → q.count ']' ≤ q.count '[') :
    ∃ drawn : List Segment,
      (t.renderOn c).2.1.segments.toList = c.segments.toList ++ drawn ∧
      drawn.length = (executed t.config.instructions).count 'F' ∧
      ∀ q, q++['F'] <+: executed t.config.instructions → ∃ s,
        drawn[q.count 'F']? = some s ∧
        s.start = (t.config.along c.transform (Word.trunk q)).point ⟨0,0⟩ ∧
        s.finish = (t.config.along c.transform (Word.trunk q)).point ⟨t.config.length,0⟩ ∧
        ((Pass.start t.config c).follow t.config (q++['F'])).1.scope.canvas.transform.origin =
          s.finish := by
  have hw := (Word.stray_tally_zero_iff _).2 h
  obtain ⟨-,drawn,hseg,hlines⟩ :=
    Config.onTrunk_opsFrom t.config t.config.color (c.draw .save) hw
  refine ⟨drawn,(segments_render t.config c).trans hseg,hlines.length,fun q hq => ?_⟩
  obtain ⟨s,hs,hstart,hfinish⟩ := hlines.line q hq
  refine ⟨s,hs,hstart,hfinish,?_⟩
  have hq₀ : (Word.tally (q++['F'])).stray = 0 :=
    (Word.stray_tally_zero_iff _).2 fun v hv => h v (hv.trans hq)
  have hon := (Config.onTrunk_opsFrom t.config t.config.color (c.draw .save) hq₀).1.transform
  rw [Pass.follow_eq,executed_eq_self hq,Pass.readAll_start,hon,Word.trunk,
    Word.trunkAfter_zero_symbol rfl,Config.along_append,hfinish]
  rfl

/-- The last line of `F[+F]-F` lies as if the branch were not there. -/
theorem renderOn_lines_branch :
    let t := Turtle.new { Config.initial with instructions := "F[+F]-F".toList }
    (∀ q, q <+: executed t.config.instructions → q.count ']' ≤ q.count '[') ∧
      ∃ s, (t.renderOn .empty).2.1.segments.toList[2]? = some s ∧
        s.start = (t.config.along .identity "F-".toList).point ⟨0,0⟩ := by
  have hpaired := (Word.stray_tally_zero_iff (executed "F[+F]-F".toList)).1 (by decide)
  obtain ⟨drawn,hseg,-,hline⟩ := renderOn_lines
    (Turtle.new { Config.initial with instructions := "F[+F]-F".toList }) .empty hpaired
  obtain ⟨s,hs,hstart,-⟩ := hline "F[+F]-".toList ⟨[],rfl⟩
  exact ⟨hpaired,s,by rw [hseg]; exact hs,hstart⟩

end Lindenmayer.Turtle
