import Lindenmayer.Proofs.LSystem.Run

/-! Parallel derivation. A symbol is replaced without regard to what stands beside it or was written
before it, so words grow part by part and symbol by symbol, and generations may be split anywhere. -/

namespace Lindenmayer.LSystem

theorem current_generate (s : LSystem) (n : Nat) :
    (s.generate n).current = s.grammar.expand s.current n := by rw [generate_eq]

/-- The word of a concatenation is the concatenation of the words. After `n+m` generations each
symbol that was there after `n` has become what a system started from it alone becomes after `m`, and
a system started from the whole word of generation `n` is then as far. Growing by `n+m` generations
is growing by `n` and then by `m`. A single symbol becomes the output of its first rule, or stays. -/
theorem generate_parallel (s : LSystem) (u v : Word) (m n : Nat) :
    let word (w : Word) (k : Nat) := ((new w s.grammar).generate k).current
    word (u++v) n = word u n ++ word v n ∧
      (s.generate (n+m)).current = (s.generate n).current.flatMap (fun c => word [c] m) ∧
      (s.generate (n+m)).current = word (s.generate n).current m ∧
      s.generate (n+m) = (s.generate n).generate m ∧
      ∀ c, word [c] 1 = Grammar.firstMatch s.grammar.rules c := by
  intro word
  have hword (w : Word) (k : Nat) : word w k = s.grammar.expand w k :=
    current_generate (new w s.grammar) k
  have hlater : (s.generate (n+m)).current = s.grammar.expand (s.generate n).current m := by
    rw [current_generate,current_generate,Grammar.expand_add]
  refine ⟨?_,?_,?_,generate_add n m s,fun c => ?_⟩
  · simp only [hword,Grammar.expand_append]
  · simp only [hlater,hword]
    exact s.grammar.expand_eq_flatMap _ m
  · rw [hlater,hword]
  · simp [hword,Grammar.expand]

/-- What is written waits for the next generation: the two symbols change places. -/
example : ((new ['A','B'] (.ofPairs [('A',['B']),('B',['A'])])).generate 3).current =
    ['B','A'] := by decide

end Lindenmayer.LSystem
