import Lindenmayer.Proofs.Grammar.Expansion
import Lindenmayer.Proofs.Json.Reading
import Lindenmayer.Stored.LSystem

/-! Rules, grammars and systems come back from the documents they were written to. Of a system's
document the current word is not read, whatever stands there. -/

namespace Lindenmayer
open Json

theorem Rule.intact_toJson (r : Rule) : r.toJson.Intact := by
  refine intact_record fun m hm => ?_
  simp only [List.mem_cons,List.not_mem_nil,or_false] at hm
  rcases hm with rfl | rfl
  · exact .text [r.input]
  · exact .text r.output

theorem Rule.ofJson_toJson (r : Rule) : Rule.ofJson r.toJson = .ok r := by
  rw [toJson,ofJson,Record.read_record,List.map_cons,
    Record.readMembers_field_ok rfl (by decide) rfl,List.map_cons,
    Record.readMembers_field_ok rfl (by decide) rfl]
  rfl

theorem Grammar.intact_toJson (g : Grammar) : g.toJson.Intact := by
  refine intact_record fun m hm => ?_
  obtain rfl := List.mem_singleton.1 hm
  refine .list fun v hv => ?_
  obtain ⟨r,-,rfl⟩ := List.mem_map.1 hv
  exact r.intact_toJson

theorem Grammar.ofJson_toJson (g : Grammar) : Grammar.ofJson g.toJson = .ok g := by
  have hrules := Json.toList_array fun r (_ : r ∈ g.rules) => r.ofJson_toJson
  rw [toJson,ofJson,Record.read_record,List.map_cons,
    Record.readMembers_field_ok rfl (by decide) (congrArg (Except.map _) hrules)]
  rfl

namespace LSystem
namespace Seed

theorem grow_eq (s : Seed) :
    s.grow = ⟨s.start,s.grammar.expand s.start s.generation,s.generation,s.grammar⟩ := by
  rw [grow,generate_eq]
  simp [new]

/-- The document of a system, with anything in the place of its current word. -/
def document (s : Seed) (current : Json) : Json :=
  .record [("axiom",.text s.start),("current",current),
    ("generation",.integer s.generation),("grammar",s.grammar.toJson)]

theorem intact_document (s : Seed) {v : Json} (hv : v.Intact) : (s.document v).Intact := by
  refine intact_record fun m hm => ?_
  simp only [List.mem_cons,List.not_mem_nil,or_false] at hm
  rcases hm with rfl | rfl | rfl | rfl
  · exact .text s.start
  · exact hv
  · exact intact_integer s.generation
  · exact s.grammar.intact_toJson

theorem read_members (s : Seed) {v : Json} (hv : v.skip = .ok ()) :
    Seed.record.read (s.document v) =
      (Json.toNatBelow UInt64.size "usize" (.integer s.generation)).map fun n =>
        { s with generation := n } := by
  have hgrammar := s.grammar.ofJson_toJson
  rw [document,Record.read_record,List.map_cons,
    Record.readMembers_field_ok rfl (by decide) rfl,List.map_cons,
    Record.readMembers_other rfl hv,List.map_cons,
    Record.readMembers_field rfl (by decide)]
  cases hn : Json.toNatBelow UInt64.size "usize" (.integer s.generation) with
  | error e => simp only [Field.optional,hn,Except.map,Except.bind]
  | ok n =>
    simp only [Field.optional,hn,Except.map,Except.bind,List.map_cons]
    rw [Record.readMembers_field_ok rfl (by decide) (congrArg (Except.map _) hgrammar)]
    rfl

theorem read_document (s : Seed) {v : Json} (hv : v.Intact) :
    Reader.run Seed.record.read (s.document v).render =
      (Json.toNatBelow UInt64.size "usize" (.integer s.generation)).map fun n =>
        { s with generation := n } := by
  rw [Reader.run_render _ (s.intact_document hv),s.read_members hv.skip]

end Seed

theorem run_ofJson (t : Word) : ofJson.run t = (Reader.run Seed.record.read t).map Seed.grow :=
  Reader.run_map Seed.record.read Seed.grow t

def seed (s : LSystem) : Seed := ⟨s.start,s.grammar,s.generation⟩

theorem toJson_eq (s : LSystem) : s.toJson = s.seed.document (.text s.current) := rfl

theorem run_ofJson_toJson (s : LSystem) :
    ofJson.run s.toJson.render =
      (Json.toNatBelow UInt64.size "usize" (.integer s.generation)).map fun n =>
        Seed.grow ⟨s.start,s.grammar,n⟩ := by
  rw [run_ofJson,toJson_eq,s.seed.read_document (.text s.current)]
  show Except.map _ (Except.map _ (Json.toNatBelow UInt64.size "usize" (.integer s.generation))) = _
  cases Json.toNatBelow UInt64.size "usize" (.integer s.generation) <;> rfl

end LSystem
end Lindenmayer
