import Lindenmayer.Grammar.Basic

/-! Lindenmayer systems: a grammar, the word it started from and the word it has reached. -/

namespace Lindenmayer

structure LSystem where
  start : Word
  current : Word
  generation : Nat
  grammar : Grammar
deriving DecidableEq

namespace LSystem

def new (start : Word) (grammar : Grammar) : LSystem := ⟨start,start,0,grammar⟩

/-- One generation: every symbol of the current word is replaced, none of those written now. The
next word grows in one buffer. -/
def step (s : LSystem) : LSystem :=
  { s with
    current := (s.current.foldl s.grammar.writeTo #[]).toList
    generation := s.generation+1 }

@[simp] theorem start_step (s : LSystem) : s.step.start = s.start := rfl
@[simp] theorem grammar_step (s : LSystem) : s.step.grammar = s.grammar := rfl
@[simp] theorem generation_step (s : LSystem) : s.step.generation = s.generation+1 := rfl
@[simp] theorem current_step (s : LSystem) : s.step.current = s.grammar.derive s.current :=
  (s.grammar.toList_foldl_writeTo s.current #[]).trans (s.grammar.foldl_appendTo s.current [])

def generate : Nat → LSystem → LSystem
  | 0, s => s
  | n+1, s => generate n s.step

@[simp] theorem generate_zero (s : LSystem) : generate 0 s = s := rfl
@[simp] theorem generate_succ (n : Nat) (s : LSystem) : generate (n+1) s = generate n s.step := rfl

end LSystem
end Lindenmayer
