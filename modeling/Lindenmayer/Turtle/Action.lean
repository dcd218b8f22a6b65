import Lindenmayer.Word

/-! The six things that a turtle can be told, one symbol each. -/

namespace Lindenmayer.Turtle

inductive Action
  | drawForward
  | moveForward
  | turnRight
  | turnLeft
  | push
  | pop
deriving DecidableEq

namespace Action

def ofSymbol? : Symbol → Option Action
  | 'F' => some .drawForward
  | 'G' => some .moveForward
  | '+' => some .turnRight
  | '-' => some .turnLeft
  | '[' => some .push
  | ']' => some .pop
  | _ => none

def symbol : Action → Symbol
  | .drawForward => 'F'
  | .moveForward => 'G'
  | .turnRight => '+'
  | .turnLeft => '-'
  | .push => '['
  | .pop => ']'

@[simp] theorem ofSymbol?_symbol (a : Action) : ofSymbol? a.symbol = some a := by cases a <;> rfl
theorem ofSymbol?_eq_some_iff {c : Symbol} {a : Action} :
    ofSymbol? c = some a ↔ c = a.symbol := by
  constructor
  · unfold ofSymbol?; split <;> rintro ⟨⟩ <;> rfl
  · rintro rfl; simp

end Action

/-- Why nothing more is drawn. -/
inductive Failure
  | invalidAction (c : Symbol)
  | noCanvas
deriving DecidableEq

def Failure.message : Failure → String
  | .invalidAction c => s!"'{c}' is an invalid turtle action"
  | .noCanvas => "cannot render: no drawing context is set for this turtle"

def Action.ofSymbol (c : Symbol) : Except Failure Action :=
  match ofSymbol? c with
  | some a => .ok a
  | none => .error (.invalidAction c)

end Lindenmayer.Turtle
