import Lindenmayer.Proofs.Stored.LSystem

/-! Systems in use. However a system came to be, and however often it is grown, written and read
back in between, it is where its seed and the number of its generations put it. -/

namespace Lindenmayer.LSystem

/-- The current word is the one that start, grammar and generation determine. -/
def Derived (s : LSystem) : Prop := s.current = s.grammar.expand s.start s.generation

theorem derived_new (w : Word) (g : Grammar) : (new w g).Derived := rfl

theorem Derived.generate {s : LSystem} (hs : s.Derived) (n : Nat) : (s.generate n).Derived := by
  rw [generate_eq,Derived,Grammar.expand_add,← hs]

theorem generate_add (m n : Nat) (s : LSystem) : s.generate (m+n) = (s.generate m).generate n := by
  rw [generate_eq,generate_eq,generate_eq,Grammar.expand_add,Nat.add_assoc]

theorem Derived.grow_seed {s : LSystem} (hs : s.Derived) : s.seed.grow = s := by
  have hexpand : s.grammar.expand s.start s.generation = s.current := hs.symm
  rw [s.seed.grow_eq]
  simp only [seed,hexpand]

inductive Event
  | generate (n : Nat)
  /-- The system is written to a document, and the document read. -/
  | reload
deriving DecidableEq

namespace Event

def generations : Event → Nat
  | .generate n => n
  | .reload => 0

end Event

def handle (s : LSystem) : Event → Except Json.ReadError LSystem
  | .generate n => .ok (s.generate n)
  | .reload => ofJson.run s.toJson.render

def run (s : LSystem) : List Event → Except Json.ReadError LSystem
  | [] => .ok s
  | e::es => (s.handle e).bind fun t => t.run es

def generations : List Event → Nat
  | [] => 0
  | e::es => e.generations+generations es

theorem Derived.eq_of_handle {s t : LSystem} (hs : s.Derived) {e : Event}
    (h : s.handle e = .ok t) : t = s.generate e.generations := by
  cases e with
  | generate n => exact (Except.ok.inj h).symm
  | reload =>
    rw [handle,run_ofJson_toJson] at h
    cases hn : Json.toNatBelow UInt64.size "usize" (.integer s.generation) with
    | error =>
      rw [hn] at h
      cases h
    | ok n =>
      obtain rfl := Json.eq_of_toNatBelow_integer hn
      rw [hn] at h
      exact (Except.ok.inj h).symm.trans hs.grow_seed

/-- Only a generation that does not fit into 64 bits cannot be reloaded. -/
theorem Derived.handle_eq {s : LSystem} (hs : s.Derived) {e : Event}
    (hn : s.generation+e.generations < UInt64.size) :
    s.handle e = .ok (s.generate e.generations) := by
  cases e with
  | generate n => rfl
  | reload =>
    have hread := Json.toNatBelow_integer (n := s.generation) hn hn "usize"
    rw [handle,run_ofJson_toJson,hread]
    exact congrArg Except.ok hs.grow_seed

theorem Derived.eq_of_run {s t : LSystem} (hs : s.Derived) {es : List Event}
    (h : s.run es = .ok t) : t = s.generate (generations es) := by
  induction es generalizing s with
  | nil => exact (Except.ok.inj h).symm
  | cons e es ih =>
    cases he : s.handle e with
    | error => simp [run,he,Except.bind] at h
    | ok u =>
      have hu := hs.eq_of_handle he
      have hrest : u.run es = .ok t := by simpa [run,he,Except.bind] using h
      rw [ih (hu ▸ hs.generate e.generations) hrest,hu,generations,generate_add]

theorem Derived.run_eq {s : LSystem} (hs : s.Derived) {es : List Event}
    (hn : s.generation+generations es < UInt64.size) :
    s.run es = .ok (s.generate (generations es)) := by
  induction es generalizing s with
  | nil => rfl
  | cons e es ih =>
    rw [generations] at hn ⊢
    have he := hs.handle_eq (e := e) (by omega)
    have hgen : (s.generate e.generations).generation = s.generation+e.generations := by
      rw [generate_eq]
    rw [run,he,generate_add]
    exact ih (hs.generate e.generations) (by omega)

inductive Origin
  | grammar (w : Word) (g : Grammar)
  | pairs (w : Word) (ps : List (Symbol × Word))
  | text (t : Word)

namespace Origin

def seed : Origin → Except Json.ReadError Seed
  | .grammar w g => .ok ⟨w,g,0⟩
  | .pairs w ps => .ok ⟨w,.ofPairs ps,0⟩
  | .text t => Json.Reader.run Seed.record.read t

def system : Origin → Except Json.ReadError LSystem
  | .grammar w g => .ok (new w g)
  | .pairs w ps => .ok (new w (.ofPairs ps))
  | .text t => ofJson.run t

def run (o : Origin) (es : List Event) : Except Json.ReadError LSystem :=
  o.system.bind fun s => s.run es

theorem system_eq (o : Origin) : o.system = o.seed.map Seed.grow := by
  cases o with
  | grammar | pairs => rfl
  | text t => exact run_ofJson t

theorem derived_grow (s : Seed) : s.grow.Derived := (derived_new s.start s.grammar).generate _

theorem grow_generate (s : Seed) (n : Nat) :
    s.grow.generate n =
      ⟨s.start,s.grammar.expand s.start (s.generation+n),s.generation+n,s.grammar⟩ := by
  rw [s.grow_eq,generate_eq,Grammar.expand_add]

/-- The start and the grammar of a system stay what they were, its generations add up, and its
current word is the expansion of the start by all of them: after every run, from every origin, and
whatever current word a document claims. A run does not fail as long as 64 bits hold the
generation. -/
theorem run_expands (o : Origin) (es : List Event) :
    (∀ t, o.run es = .ok t → ∃ seed, o.seed = .ok seed ∧
      t.start = seed.start ∧ t.grammar = seed.grammar ∧
      t.generation = seed.generation+generations es ∧
      t.current = seed.grammar.expand seed.start t.generation) ∧
    (∀ seed, o.seed = .ok seed → seed.generation+generations es < UInt64.size →
      ∃ t, o.run es = .ok t) := by
  refine ⟨fun t ht => ?_,fun seed hseed hn => ?_⟩
  · rw [run,system_eq] at ht
    cases hseed : o.seed with
    | error => simp [hseed,Except.map,Except.bind] at ht
    | ok seed =>
      have hrun : seed.grow.run es = .ok t := by simpa [hseed,Except.map,Except.bind] using ht
      obtain rfl := ((derived_grow seed).eq_of_run hrun).trans (grow_generate seed _)
      exact ⟨seed,rfl,rfl,rfl,rfl,rfl⟩
  · have hgen : seed.grow.generation = seed.generation := by
      simpa using congrArg LSystem.generation (grow_generate seed 0)
    refine ⟨seed.grow.generate (generations es),?_⟩
    rw [run,system_eq,hseed]
    exact (derived_grow seed).run_eq (hgen ▸ hn)

/-- A document of the algae system in its first generation claims the word `B`. It is grown,
written, read back and grown again. -/
theorem run_expands_algae :
    let algae : Seed := ⟨['A'],.ofPairs [('A',['A','B']),('B',['A'])],1⟩
    ∃ t, (Origin.text (algae.document (.text ['B'])).render).run
        [.generate 1,.reload,.generate 2] = .ok t ∧
      t.generation = 4 ∧ t.current = ['A','B','A','A','B','A','B','A'] := by
  intro algae
  have hseed : (Origin.text (algae.document (.text ['B'])).render).seed = .ok algae := by
    have hn : Json.toNatBelow UInt64.size "usize" (.integer (1 : Nat)) = .ok 1 :=
      Json.toNatBelow_integer (by decide) (by decide) _
    rw [seed,algae.read_document (.text ['B'])]
    exact congrArg (Except.map _) hn
  obtain ⟨t,ht⟩ := (run_expands _ [.generate 1,.reload,.generate 2]).2 algae hseed (by decide)
  obtain ⟨seed,hs,-,-,hgen,hcur⟩ := (run_expands _ _).1 t ht
  obtain rfl := Except.ok.inj (hseed.symm.trans hs)
  have hfour : t.generation = 4 := hgen
  refine ⟨t,ht,hfour,?_⟩
  rw [hcur,hfour]
  decide

end Origin
end Lindenmayer.LSystem
