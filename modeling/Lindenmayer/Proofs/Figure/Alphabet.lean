import Lindenmayer.Proofs.Figure.Growth
import Lindenmayer.Proofs.Figure.Refusal
import Lindenmayer.Proofs.LSystem.Reload
import Mathlib.Data.Set.Basic

/-! Closed alphabets: sets of symbols that no rule leads out of. A word that starts within one stays
there, so a figure whose start and rules stay within the symbols of actions can always be drawn. Any
other figure fails at the first symbol without an action, if its word comes to have one. -/

namespace Lindenmayer

namespace Grammar

/-- What takes the place of a symbol of the set is written with symbols of the set. -/
def Closed (g : Grammar) (S : Set Symbol) : Prop := ∀ c ∈ S, ∀ d ∈ firstMatch g.rules c, d ∈ S

variable {g : Grammar} {S : Set Symbol}

theorem Closed.derive (hg : g.Closed S) {w : Word} (hw : ∀ c ∈ w, c ∈ S) :
    ∀ d ∈ g.derive w, d ∈ S := by
  intro d hd
  obtain ⟨c,hc,hdc⟩ := List.mem_flatMap.1 hd
  rw [replacement_eq_firstMatch] at hdc
  exact hg c (hw c hc) d hdc

theorem Closed.expand (hg : g.Closed S) {w : Word} (hw : ∀ c ∈ w, c ∈ S) (n : Nat) :
    ∀ d ∈ g.expand w n, d ∈ S :=
  expand_induction (P := fun v => ∀ d ∈ v, d ∈ S) (fun _ hv => hg.derive hv) hw n

end Grammar

theorem LSystem.Derived.mem_generate {s : LSystem} {S : Set Symbol} (hs : s.Derived)
    (hstart : ∀ c ∈ s.start, c ∈ S) (hclosed : s.grammar.Closed S) (n : Nat) :
    ∀ c ∈ (s.generate n).current, c ∈ S := by
  have hn : (s.generate n).Derived := hs.generate n
  rw [Derived] at hn
  rw [hn,generate_eq]
  exact hclosed.expand hstart _

namespace Turtle

theorem refused?_eq_some_iff {w : Word} {x : Symbol} :
    refused? w = some x ↔ ∃ p q, w = p++x::q ∧ (∀ a ∈ p, a ∈ alphabet) ∧ x ∉ alphabet := by
  constructor
  · intro h
    obtain ⟨hx,p,q,hw,hp⟩ := List.find?_eq_some_iff_append.1 h
    exact ⟨p,q,hw,fun a ha => by simpa using hp a ha,by simpa using hx⟩
  · rintro ⟨p,q,rfl,hp,hx⟩
    exact refused?_refused hp hx q

theorem Config.result_render_error_iff (cfg : Config) (c : Canvas) (x : Symbol) :
    (cfg.render c).result = .error (.invalidAction x) ↔
      ∃ p q, cfg.instructions = p++x::q ∧ (∀ a ∈ p, a ∈ alphabet) ∧ x ∉ alphabet := by
  rw [result_render,← refused?_eq_some_iff]
  cases refused? cfg.instructions <;> simp

end Turtle

open Turtle

namespace Figure

theorem lines_renderOn (f : Figure) (c : Canvas) :
    ∃ drawn, (f.renderOn c).2.1.segments.toList = c.segments.toList ++ drawn ∧
      drawn.length = (executed f.turtle.config.instructions).count 'F' := by
  obtain ⟨drawn,hdrawn,hlength⟩ :=
    Canvas.segments_drawAll (f.place c).canvas f.turtle.config.trace
  refine ⟨drawn,?_,?_⟩
  · rw [segments_renderOn,Config.canvas_render,hdrawn]
    rfl
  · rw [hlength,Config.countP_trace rfl rfl rfl,Config.countP_isLine_opsFrom]

end Figure

/-- Let a set of symbols hold those of the start of a system, and let no rule in use lead out of it.
Then it holds the symbols of every generation, however the system came to be and whatever was done
with it. If all these symbols are actions, then every frame of a figure with that start and those
rules succeeds, for any number of generations. In general a frame succeeds iff all symbols of the
word are actions, and it fails at `x` iff that is the first one that is none; then as many lines are
drawn as there are `F` before `x`. -/
theorem symbols_of_closed (S : Set Symbol) :
    (∀ (o : LSystem.Origin) (es : List LSystem.Event) (s : LSystem), o.run es = .ok s →
      (∀ c ∈ s.start, c ∈ S) → s.grammar.Closed S →
      (∀ n, ∀ c ∈ ((LSystem.new s.start s.grammar).generate n).current, c ∈ S) ∧
        ∀ n, ∀ c ∈ (s.generate n).current, c ∈ S) ∧
    (∀ cfg : Figure.Config, (∀ c ∈ cfg.start, c ∈ S) → cfg.rules.grammar.Closed S →
      (∀ c ∈ S, c ∈ alphabet) → ∀ (n : UInt32) (es : List Figure.Event) (c : Canvas),
        (((Figure.new { cfg with generations := n }).run es).renderOn c).2.2 = .ok ()) ∧
    ∀ (cfg : Figure.Config) (es : List Figure.Event) (c : Canvas),
      let word := cfg.system.current
      let frame := ((Figure.new cfg).run es).renderOn c
      (frame.2.2 = .ok () ↔ ∀ a ∈ word, a ∈ alphabet) ∧
        ∀ x, frame.2.2 = .error (.invalidAction x) ↔
          ∃ p q, word = p++x::q ∧ (∀ a ∈ p, a ∈ alphabet) ∧ x ∉ alphabet ∧
            ∃ drawn, frame.2.1.segments.toList = c.segments.toList ++ drawn ∧
              drawn.length = p.count 'F' := by
  refine ⟨fun o es s hrun hstart hclosed => ⟨?_,?_⟩,
    fun cfg hstart hclosed hactions n es c => ?_,fun cfg es c => ?_⟩
  · exact (LSystem.derived_new s.start s.grammar).mem_generate hstart hclosed
  · exact (LSystem.Origin.derived_of_run hrun).mem_generate hstart hclosed
  · refine (Config.result_render_ok_iff _ _).2 ?_
    rw [Figure.instructions_run]
    have hword := (LSystem.derived_new cfg.start cfg.rules.grammar).mem_generate hstart hclosed
    exact fun a ha => hactions a (hword n.toNat a ha)
  · intro word frame
    have hword : ((Figure.new cfg).run es).turtle.config.instructions = word :=
      Figure.instructions_run cfg es
    have hok := Config.result_render_ok_iff ((Figure.new cfg).run es).turtle.config
    have herror := Config.result_render_error_iff ((Figure.new cfg).run es).turtle.config
    rw [hword] at hok herror
    refine ⟨hok _,fun x => (herror _ x).trans ?_⟩
    constructor
    · rintro ⟨p,q,hsplit,hp,hx⟩
      obtain ⟨drawn,hdrawn,hlength⟩ := ((Figure.new cfg).run es).lines_renderOn c
      rw [hword,hsplit,executed_refused hp hx] at hlength
      exact ⟨p,q,hsplit,hp,hx,drawn,hdrawn,hlength⟩
    · rintro ⟨p,q,hsplit,hp,hx,-⟩
      exact ⟨p,q,hsplit,hp,hx⟩

/-- The refused symbol `?` is written only by a rule that comes second and by one for a symbol that
is never met. -/
theorem symbols_of_closed_hidden :
    let S : Set Symbol := {c | c ∈ ['F','[','+','G',']']}
    let rules := [('F',['F','[','+','G',']']),('F',['?'])]
    let cfg := { Figure.Config.initial with
      start := ['F'], rules := (RuleTable.empty.insert 'F' ['F','[','+','G',']']).insert 'X' ['?'] }
    ∃ s, ((LSystem.Origin.pairs ['F'] rules).run [.generate 2] = .ok s ∧
        (∀ c ∈ s.start, c ∈ S) ∧ s.grammar.Closed S ∧ (∀ c ∈ cfg.start, c ∈ S) ∧
        cfg.rules.grammar.Closed S ∧ ∀ c ∈ S, c ∈ alphabet) ∧
      (∀ n, '?' ∉ (s.generate n).current) ∧
      ∀ n c, (((Figure.new { cfg with generations := n }).run [.update]).renderOn c).2.2 = .ok () := by
  intro S rules cfg
  have hrun : (LSystem.Origin.pairs ['F'] rules).run [.generate 2] =
      .ok ((LSystem.new ['F'] (.ofPairs rules)).generate 2) := rfl
  have hstart : ∀ c ∈ ['F'], c ∈ S := List.forall_mem_singleton.2 (.head _)
  -- A symbol is closed within `S` if its first rule writes symbols of `S`; the others stay.
  have hclosed {g : Grammar} (hF : Grammar.firstMatch g.rules 'F' = ['F','[','+','G',']'])
      (hrest : ∀ c ∈ ['[','+','G',']'], Grammar.firstMatch g.rules c = [c]) : g.Closed S := by
    intro c hc d hd
    rcases List.mem_cons.1 hc with rfl | hc
    · rwa [hF] at hd
    · rw [hrest c hc,List.mem_singleton] at hd
      exact hd ▸ .tail _ hc
  have hsystem : ((LSystem.new ['F'] (.ofPairs rules)).generate 2).grammar.Closed S :=
    hclosed rfl (by simp [Grammar.firstMatch,rules,LSystem.new])
  have hfigure : cfg.rules.grammar.Closed S :=
    hclosed rfl (by simp [Grammar.firstMatch,cfg,RuleTable.grammar,insertAscending])
  have hactions : ∀ c ∈ S, c ∈ alphabet := by simp [S,alphabet]
  obtain ⟨hwords,hframes,-⟩ := symbols_of_closed S
  refine ⟨_,⟨hrun,hstart,hsystem,hstart,hfigure,hactions⟩,fun n hn => ?_,
    fun n c => hframes cfg hstart hfigure hactions n [.update] c⟩
  exact absurd ((hwords _ _ _ hrun hstart hsystem).2 n '?' hn) (by simp [S])

end Lindenmayer
