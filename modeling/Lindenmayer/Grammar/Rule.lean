import Lindenmayer.Word

/-! Rules: one symbol and the word that takes its place. -/

namespace Lindenmayer

structure Rule where
  input : Symbol
  output : Word
deriving DecidableEq

namespace Rule

/-- A rule was asked for a symbol that is not its input. -/
structure Mismatch where
  rule : Rule
  symbol : Symbol
deriving DecidableEq

def appliesTo (r : Rule) (c : Symbol) : Bool := c == r.input
@[simp] theorem appliesTo_iff {r : Rule} {c : Symbol} : r.appliesTo c = true ↔ c = r.input := by
  simp [appliesTo]

def apply (r : Rule) (c : Symbol) : Except Mismatch Word :=
  if r.appliesTo c then .ok r.output else .error ⟨r,c⟩
theorem apply_of_ne {r : Rule} {c : Symbol} (h : c ≠ r.input) : r.apply c = .error ⟨r,c⟩ := by
  simp [apply,h]

/-- The rule as it is usually written down. -/
def text (r : Rule) : Word := r.input :: " -> ".toList ++ r.output

def Mismatch.message (m : Mismatch) : String :=
  s!"the rule '{String.ofList m.rule.text}' cannot be applied to symbol '{m.symbol}'"

end Rule
end Lindenmayer
