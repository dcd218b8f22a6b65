import Lindenmayer.LSystem
import Mathlib.Logic.Function.Iterate

/-! Expansion: the word after any number of generations, defined by the first rule for each symbol
alone, and what a system makes of it. -/

namespace Lindenmayer

namespace Grammar

/-- The output of the first rule for a symbol, or the symbol itself if there is none. -/
def firstMatch : List Rule → Symbol → Word
  | [],c => [c]
  | r::rest,c => if c = r.input then r.output else firstMatch rest c

/-- The word after a number of generations. -/
def expand (g : Grammar) (w : Word) : Nat → Word
  | 0 => w
  | n+1 => (g.expand w n).flatMap (firstMatch g.rules)

theorem replacement_eq_firstMatch (g : Grammar) (c : Symbol) :
    g.replacement c = firstMatch g.rules c := by
  obtain ⟨rs⟩ := g
  induction rs with
  | nil => rfl
  | cons r rs ih =>
    by_cases h : c = r.input
    · simp [replacement,find?,firstMatch,h,Rule.appliesTo]
    · have hr : r.appliesTo c = false := by simpa [Rule.appliesTo] using h
      rw [firstMatch,if_neg h,← ih]
      simp [replacement,find?,hr]

theorem expand_succ (g : Grammar) (w : Word) (n : Nat) :
    g.expand w (n+1) = g.derive (g.expand w n) := by
  rw [expand,derive,funext g.replacement_eq_firstMatch]

theorem expand_eq_iterate (g : Grammar) (w : Word) (n : Nat) :
    g.expand w n = (·.flatMap g.replacement)^[n] w := by
  induction n with
  | zero => rfl
  | succ n ih =>
    rw [expand_succ,ih,Function.iterate_succ_apply']
    rfl

theorem expand_add (g : Grammar) (w : Word) (m n : Nat) :
    g.expand w (m+n) = g.expand (g.expand w m) n := by
  induction n with
  | zero => rfl
  | succ n ih => rw [← Nat.add_assoc,expand_succ,expand_succ,ih]

@[simp] theorem expand_nil (g : Grammar) (n : Nat) : g.expand [] n = [] := by
  induction n with
  | zero => rfl
  | succ n ih => rw [expand,ih]; rfl

theorem expand_append (g : Grammar) (v w : Word) (n : Nat) :
    g.expand (v++w) n = g.expand v n ++ g.expand w n := by
  induction n with
  | zero => rfl
  | succ n ih => simp only [expand,ih,List.flatMap_append]

/-- Each symbol grows by itself, whatever stands beside it. -/
theorem expand_eq_flatMap (g : Grammar) (w : Word) (n : Nat) :
    g.expand w n = w.flatMap fun c => g.expand [c] n := by
  induction w with
  | nil => simp
  | cons c w ih => rw [List.flatMap_cons,← ih,← expand_append]; rfl

theorem expand_induction {g : Grammar} {P : Word → Prop} (hP : ∀ w, P w → P (g.derive w)) {w : Word}
    (hw : P w) (n : Nat) : P (g.expand w n) := by
  induction n with
  | zero => exact hw
  | succ n ih => rw [expand_succ]; exact hP _ ih

theorem expand_empty (w : Word) (n : Nat) : empty.expand w n = w :=
  expand_induction (P := (· = w)) (fun _ hv => by rw [hv]; exact List.flatMap_singleton' w) rfl n

end Grammar

namespace LSystem

theorem generate_eq (n : Nat) (s : LSystem) :
    s.generate n =
      ⟨s.start,s.grammar.expand s.current n,s.generation+n,s.grammar⟩ := by
  induction n generalizing s with
  | zero => rfl
  | succ n ih =>
    have hstep : s.grammar.derive s.current = s.grammar.expand s.current 1 :=
      (s.grammar.expand_succ s.current 0).symm
    rw [generate_succ,ih,LSystem.mk.injEq]
    refine ⟨rfl,?_,?_,rfl⟩
    · rw [current_step,grammar_step,hstep,← Grammar.expand_add,Nat.add_comm]
    · rw [generation_step]; omega

end LSystem
end Lindenmayer
