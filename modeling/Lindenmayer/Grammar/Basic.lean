import Lindenmayer.Grammar.Rule

/-! Grammars: rules in order of priority. The first rule for a symbol replaces it, and a symbol
without a rule stays as it is. -/

namespace Lindenmayer

structure Grammar where
  rules : List Rule
deriving DecidableEq

namespace Grammar

def empty : Grammar := ⟨[]⟩

def ofPairs (ps : List (Symbol × Word)) : Grammar := ⟨ps.map fun p => ⟨p.1,p.2⟩⟩
@[simp] theorem rules_ofPairs (ps : List (Symbol × Word)) :
    (ofPairs ps).rules = ps.map fun p => ⟨p.1,p.2⟩ := rfl

/-- Adds a rule below all others. -/
def push (g : Grammar) (r : Rule) : Grammar := ⟨g.rules ++ [r]⟩
@[simp] theorem rules_push (g : Grammar) (r : Rule) : (g.push r).rules = g.rules ++ [r] := rfl

def size (g : Grammar) : Nat := g.rules.length
@[simp] theorem size_push (g : Grammar) (r : Rule) : (g.push r).size = g.size+1 := by simp [size]

def isEmpty (g : Grammar) : Bool := g.rules.isEmpty

def find? (g : Grammar) (c : Symbol) : Option Rule := g.rules.find? fun r => r.appliesTo c

/-- What takes the place of one symbol. -/
def replacement (g : Grammar) (c : Symbol) : Word :=
  match g.find? c with
  | some r => r.output
  | none => [c]

/-- Writes what takes the place of `c` at the end of a buffer. -/
def writeTo (g : Grammar) (buffer : Array Symbol) (c : Symbol) : Array Symbol :=
  match g.find? c with
  | some r => buffer ++ r.output
  | none => buffer.push c
@[simp] theorem toList_writeTo (g : Grammar) (buffer : Array Symbol) (c : Symbol) :
    (g.writeTo buffer c).toList = buffer.toList ++ g.replacement c := by
  unfold writeTo replacement; cases g.find? c <;> simp

/-- The same after a word that is already there. -/
def appendTo (g : Grammar) (done : Word) (c : Symbol) : Word := (g.writeTo done.toArray c).toList
theorem appendTo_eq (g : Grammar) (done : Word) (c : Symbol) :
    g.appendTo done c = done ++ g.replacement c := g.toList_writeTo done.toArray c

theorem toList_foldl_writeTo (g : Grammar) (w : Word) (buffer : Array Symbol) :
    (w.foldl g.writeTo buffer).toList = w.foldl g.appendTo buffer.toList := by
  induction w generalizing buffer with
  | nil => rfl
  | cons c w ih => rw [List.foldl_cons,ih,List.foldl_cons,toList_writeTo,appendTo_eq]

/-- One step of derivation: all symbols of a word are replaced at once. -/
def derive (g : Grammar) (w : Word) : Word := w.flatMap g.replacement
@[simp] theorem derive_nil (g : Grammar) : g.derive [] = [] := rfl
@[simp] theorem derive_cons (g : Grammar) (c : Symbol) (w : Word) :
    g.derive (c::w) = g.replacement c ++ g.derive w := by simp [derive]
@[simp] theorem derive_append (g : Grammar) (v w : Word) :
    g.derive (v++w) = g.derive v ++ g.derive w := by simp [derive]
theorem foldl_appendTo (g : Grammar) (w done : Word) :
    w.foldl g.appendTo done = done ++ g.derive w := by
  induction w generalizing done <;> simp_all [appendTo_eq]

end Grammar
end Lindenmayer
