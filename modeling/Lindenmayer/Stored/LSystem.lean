import Lindenmayer.Json.Record
import Lindenmayer.LSystem

/-! Rules, grammars and systems in documents. Of a system only the start, the grammar and the
generation are read back; its current word is derived again. -/

namespace Lindenmayer
open Json

namespace Rule

def toJson (r : Rule) : Json := .record [("input",.text [r.input]),("output",.text r.output)]

def record : Json.Record Rule where
  name := "struct RewriteRule"
  fields := [
    .mandatory "input" Json.toSymbol fun c r => { r with input := c },
    .mandatory "output" Json.toWord fun w r => { r with output := w }]
  initial := ⟨'\x00',[]⟩

def ofJson : Json.Reader Rule := record.read

end Rule

namespace Grammar

def toJson (g : Grammar) : Json := .record [("rules",.array (g.rules.map Rule.toJson))]

def record : Json.Record Grammar where
  name := "struct Grammar"
  fields := [.mandatory "rules" (Json.toList Rule.ofJson) fun rs _ => ⟨rs⟩]
  initial := .empty

def ofJson : Json.Reader Grammar := record.read

end Grammar

namespace LSystem

def toJson (s : LSystem) : Json :=
  .record [("axiom",.text s.start),("current",.text s.current),
    ("generation",.integer s.generation),("grammar",s.grammar.toJson)]

/-- What a system is derived from. -/
structure Seed where
  start : Word
  grammar : Grammar
  generation : Nat
deriving DecidableEq

def Seed.grow (s : Seed) : LSystem := (LSystem.new s.start s.grammar).generate s.generation

def Seed.record : Json.Record Seed where
  name := "struct LSystemSeed"
  fields := [
    .mandatory "axiom" Json.toWord fun w s => { s with start := w },
    .optional "grammar" Grammar.ofJson fun g s => { s with grammar := g },
    .optional "generation" (Json.toNatBelow UInt64.size "usize")
      fun n s => { s with generation := n }]
  initial := ⟨[],.empty,0⟩

def ofJson : Json.Reader LSystem := fun v => (Seed.record.read v).map Seed.grow

end LSystem
end Lindenmayer
