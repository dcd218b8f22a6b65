import Lindenmayer.Proofs.LSystem.Run

/-! Systems that are written and read back. The current word is not read but derived again, so a
system comes back as it was because every system in use is derived from its seed. -/

namespace Lindenmayer.LSystem

/-- A derived system is what its document stands for, whatever current word the document has. -/
theorem Derived.run_document {s : LSystem} (hs : s.Derived) (hn : s.generation < UInt64.size)
    {v : Json} (hv : v.Intact) : ofJson.run (s.seed.document v).render = .ok s := by
  have hread : Json.toNatBelow UInt64.size "usize" (.integer s.seed.generation) =
      .ok s.seed.generation := Json.toNatBelow_integer hn hn "usize"
  rw [run_ofJson,s.seed.read_document hv,hread]
  exact congrArg Except.ok hs.grow_seed

theorem Origin.derived_of_run {o : Origin} {es : List Event} {t : LSystem}
    (h : o.run es = .ok t) : t.Derived := by
  rw [run,system_eq] at h
  cases hseed : o.seed with
  | error => simp [hseed,Except.map,Except.bind] at h
  | ok seed =>
    have hrun : seed.grow.run es = .ok t := by simpa [hseed,Except.map,Except.bind] using h
    obtain rfl := (derived_grow seed).eq_of_run hrun
    exact (derived_grow seed).generate _

/-- Every system that some run arrives at is read back from its text with the same start, current
word, generation and rules, and it goes on as if it had never been written. The generation is one
that 64 bits can hold. -/
theorem run_toJson_render (o : Origin) (es : List Event) (t : LSystem) (ht : o.run es = .ok t)
    (hn : t.generation < UInt64.size) :
    ofJson.run t.toJson.render = .ok t ∧
      ∀ m, (ofJson.run t.toJson.render).map (generate m) = .ok (t.generate m) := by
  have hread : ofJson.run t.toJson.render = .ok t := by
    rw [toJson_eq]
    exact (Origin.derived_of_run ht).run_document hn (.text t.current)
  refine ⟨hread,fun m => ?_⟩
  rw [hread]
  rfl

/-- Rules for a quotation mark, given twice, for a backslash, for a control character, for a
character beyond sixteen bits, and one that erases. -/
theorem run_toJson_render_escapes :
    let rules : List (Symbol × Word) := [('"',"\\\"\x01".toList),('"',['x']),('\\',[]),
      ('\x01',"😀\n".toList),('😀',['"','\\'])]
    ∃ t, ((Origin.pairs ['"','\\'] rules).run [.generate 3] = .ok t ∧
        t.generation < UInt64.size) ∧
      ofJson.run t.toJson.render = .ok t := by
  intro rules
  have hrun : (Origin.pairs ['"','\\'] rules).run [.generate 3] =
      .ok ((new ['"','\\'] (.ofPairs rules)).generate 3) := rfl
  have hn : ((new ['"','\\'] (.ofPairs rules)).generate 3).generation < UInt64.size := by decide
  exact ⟨_,⟨hrun,hn⟩,(run_toJson_render _ _ _ hrun hn).1⟩

end Lindenmayer.LSystem
