import Lindenmayer.Figure.Basic
import Lindenmayer.Proofs.LSystem.Parallel
import Lindenmayer.Proofs.Stored.Figure

/-! From the rules in a text to the word of a figure. Of several members with one key the table keeps
the last, of several rules for one symbol a grammar uses the first. A table has one rule at most for
a symbol, so the rule that is used is the last member. -/

namespace Lindenmayer
open Json

namespace RuleTable

/-- What a member of an object of rules says: a word for a symbol. -/
structure Spells (m : List Char × List Char) (p : Symbol × Word) : Prop where
  key : KeyOf m.1 [p.1]
  word : Json.toWord.run m.2 = .ok p.2

/-- The member has this symbol for its key, however it is written. -/
def hasKey (c : Symbol) (m : List Char × List Char) : Bool := Json.toWord.run m.1 = .ok [c]

/-- The same members in another order. Those with the same key have kept their order, so that only
members with different keys have changed places. -/
structure Rearranged (rs rs' : List (List Char × List Char)) : Prop where
  perm : rs'.Perm rs
  filter (c : Symbol) : rs'.filter (hasKey c) = rs.filter (hasKey c)

variable {m : List Char × List Char} {p q : Symbol × Word} {rs rs' : List (List Char × List Char)}
  {ps : List (Symbol × Word)} {r : List Char}

theorem Spells.hasKey_iff (h : Spells m p) (c : Symbol) : hasKey c m = true ↔ p.1 = c := by
  simp [hasKey,h.key.word]

theorem Spells.wellFormed (h : Spells m p) : KeyText m.1 ∧ WellFormed m.2 := by
  obtain ⟨hroot,hfollowed⟩ := Reader.run_eq_ok.1 h.word
  exact ⟨h.key.text,Document.wellFormed_of_whole ⟨hfollowed,thorough_toWord hroot⟩⟩

theorem Spells.unique (hp : Spells m p) (hq : Spells m q) : p = q := by
  have hkey : p.1 = q.1 := by simpa using hp.key.word.symm.trans hq.key.word
  have hword : p.2 = q.2 := by simpa using hp.word.symm.trans hq.word
  exact Prod.ext hkey hword

theorem Spells.readsAs (h : Spells m p) : MemberReadsAs m (some [p.1],.text p.2) := by
  obtain ⟨v,hv,hword⟩ := thorough_toWord.readsAs h.word
  exact ⟨h.key.keyReadsAs,toWord_eq_ok_iff.1 hword ▸ hv⟩

theorem spells_of_readsAs (hm : KeyText m.1) (h : MemberReadsAs m (some [p.1],.text p.2)) :
    Spells m p :=
  ⟨(hm.keyOf_iff h.1).2 rfl,h.2.run Json.toWord⟩

theorem readsAs_document (hr : ObjectOf rs r) (h : List.Forall₂ Spells rs ps) :
    ReadsAs r (document ps) :=
  hr.readsAs (List.forall₂_map_right_iff.2 (h.imp fun _ _ => Spells.readsAs))

/-- The members of an object that is read as a table are what the table is made from. -/
theorem exists_pairs (hr : ObjectOf rs r) (hrs : ∀ m ∈ rs, KeyText m.1 ∧ WellFormed m.2) :
    ∃ v, ReadsAs r v ∧ ∀ {t}, ofJson v = .ok t →
      ∃ ps, List.Forall₂ Spells rs ps ∧ v = document ps ∧ ofPairs ps = t := by
  obtain ⟨us,hus⟩ := exists_trees hrs
  refine ⟨_,hr.readsAs hus,fun ht => ?_⟩
  obtain ⟨ps,hv,hps⟩ := ofJson_eq_ok_iff.1 ht
  obtain ⟨rfl,-⟩ := Json.object.inj hv
  have hmembers := (List.forall₂_and_left _ _).2 ⟨hrs,List.forall₂_map_right_iff.1 hus⟩
  exact ⟨ps,hmembers.imp fun m p h => spells_of_readsAs h.1.1 h.2,rfl,hps⟩

theorem Rearranged.exists_pairs (h : Rearranged rs rs') (hps : List.Forall₂ Spells rs ps) :
    ∃ ps', List.Forall₂ Spells rs' ps' ∧ ofPairs ps' = ofPairs ps := by
  have hspells : ∀ m ∈ rs, ∃ p, Spells m p :=
    ((List.forall₂_and_left rs ps).1 (hps.imp fun m p hm => ⟨⟨p,hm⟩,hm⟩)).1
  obtain ⟨ps',hps'⟩ := exists_forall₂ fun m hm => hspells m (h.perm.subset hm)
  refine ⟨ps',hps',ofPairs_congr fun c => ?_⟩
  have hfilter {rs ps} (hps : List.Forall₂ Spells rs ps) :
      List.Forall₂ Spells (rs.filter (hasKey c)) (ps.filter (·.1 == c)) :=
    List.rel_filter (fun m p hp => (hp.hasKey_iff c).trans beq_iff_eq.symm) hps
  have hsame : ps'.filter (·.1 == c) = ps.filter (·.1 == c) :=
    List.right_unique_forall₂' (R := Spells) (fun _ _ _ => Spells.unique) (hfilter hps')
      (h.filter c ▸ hfilter hps)
  rw [lastWord?,lastWord?,hsame]

end RuleTable

namespace Figure.Config

theorem fills_rules : record.Fills
    (.optional "rules" RuleTable.ofJson fun x c => { c with rules := x }) RuleTable.ofJson
    Config.rules where
  mem := .tail _ (.head _)
  get_of_set {v c c'} h := by
    have hmap : (RuleTable.ofJson v).map (fun x => { c with rules := x }) = .ok c' := h
    obtain ⟨x,hx,rfl⟩ := map_eq_ok.1 hmap
    exact hx
  congr {v v' x} h h' := by
    funext c
    show (RuleTable.ofJson v).map _ = (RuleTable.ofJson v').map _
    rw [h,h']
  keep {g} hg hname v c c' h := by
    obtain ⟨i,hi,rfl,-⟩ := exists_setting hg h
    cases i with
    | rules => exact absurd hi.symm hname
    | _ => rfl

/-- The text of a configuration in which `r` is the text of the rules, an object with the members
`rs`, and `around` is the rest. -/
structure HasRules (t : Word) (around : List Char → List Char)
    (rs : List (List Char × List Char)) (r : List Char) : Prop where
  place : record.Around "rules" around
  object : ObjectOf rs r
  members : ∀ m ∈ rs, KeyText m.1 ∧ WellFormed m.2
  eq : t = around r

theorem lacks_or_hasRules {t : Word} {cfg : Config} (h : ofJson.run t = .ok cfg) :
    record.Lacks "rules" t ∧ cfg.rules = initial.rules ∨ ∃ around rs r, HasRules t around rs r := by
  refine (fills_rules.exists_around follows h).imp_right fun ⟨around,r,haround,hr,ht⟩ => ?_
  subst ht
  obtain ⟨v,hv,hform⟩ := hr.exists_form
  obtain ⟨hrules,-⟩ := fills_rules.read_around follows haround hv h
  obtain ⟨ps,rfl,-⟩ := RuleTable.ofJson_eq_ok_iff.1 hrules
  cases hform with
  | object hr hms => exact ⟨around,_,r,⟨haround,hr,hms,rfl⟩⟩
  | single hobject => exact absurd rfl (hobject _ _)

end Figure.Config

namespace Figure
open RuleTable

/-- A figure from any text. If the text has no rules they are those that there are without a text.
Otherwise the symbols that have a rule are the keys, in ascending order and each of them once. In
place of a symbol comes the word of the last member with this key, or the symbol itself if there is
none. The figure's word, which its turtle follows, is the starting word with all symbols replaced at
once, as many times as there are generations. Where only members with different keys change places
the figure stays the same. -/
theorem rules_of_run {t : Word} {cfg : Config} (h : Config.ofJson.run t = .ok cfg) :
    (Config.record.Lacks "rules" t ∧ cfg.rules = Config.initial.rules ∨
      ∃ around rs r, Config.HasRules t around rs r) ∧
    ∀ {around rs r}, Config.HasRules t around rs r → ∃ ps, List.Forall₂ Spells rs ps ∧
      let f := new cfg
      let inputs := f.system.grammar.rules.map Rule.input
      let lookup (c : Symbol) : Word := (lastWord? ps c).getD [c]
      inputs.Pairwise (· < ·) ∧
      (∀ c, c ∈ inputs ↔ c ∈ ps.map Prod.fst) ∧
      (∀ c, f.system.grammar.replacement c = lookup c) ∧
      f.system.generation = cfg.generations.toNat ∧
      f.turtle.config.instructions = f.system.current ∧
      f.system.current = (·.flatMap lookup)^[cfg.generations.toNat] cfg.start ∧
      ∀ {rs' r'}, Rearranged rs rs' → ObjectOf rs' r' →
        Config.ofJson.run (around r') = .ok cfg := by
  refine ⟨Config.lacks_or_hasRules h,fun {around rs r} ⟨haround,hr,hrs,ht⟩ => ?_⟩
  subst ht
  obtain ⟨v,hv,hpairs⟩ := RuleTable.exists_pairs hr hrs
  obtain ⟨hrules,hother⟩ := Config.fills_rules.read_around Config.follows haround hv h
  obtain ⟨ps,hps,rfl,htable⟩ := hpairs hrules
  -- The pairs of the text and those of the table have the same last words, and in the table they
  -- are the only ones.
  have hsystem : cfg.system = ⟨cfg.start,cfg.rules.grammar.expand cfg.start
      cfg.generations.toNat,0+cfg.generations.toNat,cfg.rules.grammar⟩ :=
    LSystem.generate_eq cfg.generations.toNat (.new cfg.start cfg.rules.grammar)
  have hlookup (c : Symbol) : cfg.rules.grammar.replacement c = (lastWord? ps c).getD [c] := by
    rw [replacement_grammar,← htable,lastWord?_pairs_ofPairs]
  have hinputs : cfg.rules.grammar.rules.map Rule.input = cfg.rules.pairs.map Prod.fst :=
    cfg.rules.inputs_grammar
  refine ⟨ps,hps,?_⟩
  intro f inputs lookup
  have hf : f.system = cfg.system := rfl
  simp only [inputs,hf,hsystem,hinputs,lookup]
  refine ⟨List.pairwise_map.2 cfg.rules.ascending,fun c => ?_,hlookup,Nat.zero_add _,?_,?_,?_⟩
  · rw [← htable]
    exact mem_inputs_ofPairs ps c
  · exact congrArg LSystem.current hsystem
  · rw [Grammar.expand_eq_iterate,funext hlookup]
  · intro rs' r' hrearranged hr'
    obtain ⟨ps',hps',htable'⟩ := hrearranged.exists_pairs hps
    exact hother (readsAs_document hr' hps') (ofJson_eq_ok_iff.2 ⟨ps',rfl,htable'.trans htable⟩)

/-- A key that is repeated with another one in between, which is written as an escape. -/
theorem rules_of_run_repeated :
    let around (r : List Char) := [] ++ objectText [] ([] ++ ("\"rules\"".toList,r)::
      [("\"generations\"".toList,['2']),("\"axiom\"".toList,"\"ab\"".toList)]) ++ []
    let b₁ := ("\"b\"".toList,"\"x\"".toList)
    let a := ("\"\\u0061\"".toList,"\"b\"".toList)
    let b₂ := ("\"b\"".toList,"\"ab\"".toList)
    let cfg : Config := { Config.initial with
      start := ['a','b']
      rules := (RuleTable.empty.insert 'a' ['b']).insert 'b' ['a','b']
      generations := 2 }
    Config.ofJson.run (around (objectText [] [b₁,a,b₂])) = .ok cfg ∧
      Config.ofJson.run (around (objectText [' '] [b₁,b₂,a])) = .ok cfg ∧
      (new cfg).system.grammar.replacement 'b' = ['a','b'] ∧
      (new cfg).turtle.config.instructions = "abbab".toList := by
  intro around b₁ a b₂ cfg
  have hform {t} (h : Json.skip.run t = .ok ()) : WellFormed t := (run_skip_iff t).1 h
  have hkey {k w} (h : Json.toWord.run k = .ok w) : KeyOf k w := (keyOf_iff k w).2 h
  have hobject {b ms} (hb : Blanks b) : ObjectOf ms (objectText b ms) := by
    have h : ObjectOf ms ([] ++ objectText b ms ++ []) := .intro (by decide) hb (by decide)
    rwa [List.nil_append,List.append_nil] at h
  have haround : Config.record.Around "rules" around := by
    refine .object (by decide) (by decide) (by decide) (hkey (by decide +kernel)) ?_
    simp only [List.nil_append,List.forall_mem_cons]
    exact ⟨⟨(hkey (w := "generations".toList) (by decide +kernel)).text,hform (by decide +kernel)⟩,
      ⟨(hkey (w := "axiom".toList) (by decide +kernel)).text,hform (by decide +kernel)⟩,nofun⟩
  have hb₁ : Spells b₁ ('b',['x']) := ⟨hkey (by decide +kernel),by decide +kernel⟩
  have ha : Spells a ('a',['b']) := ⟨hkey (by decide +kernel),by decide +kernel⟩
  have hb₂ : Spells b₂ ('b',['a','b']) := ⟨hkey (by decide +kernel),by decide +kernel⟩
  have hrs : ∀ m ∈ [b₁,a,b₂], KeyText m.1 ∧ WellFormed m.2 :=
    List.forall_mem_cons.2 ⟨hb₁.wellFormed,List.forall_mem_cons.2 ⟨ha.wellFormed,
      List.forall_mem_singleton.2 hb₂.wellFormed⟩⟩
  have hrearranged : Rearranged [b₁,a,b₂] [b₁,b₂,a] := by
    refine ⟨.cons _ (.swap _ _ _),fun c => ?_⟩
    have hb₁c := hb₁.hasKey_iff c
    have hac := ha.hasKey_iff c
    have hb₂c := hb₂.hasKey_iff c
    by_cases hc : 'b' = c
    · subst hc
      simp [hb₁c,hac,hb₂c]
    · simp [List.filter_cons,hb₁c,hb₂c,hc]
  have hread : Config.ofJson.run (around (objectText [] [b₁,a,b₂])) = .ok cfg := by decide +kernel
  obtain ⟨ps,hps,-,-,hlookup,-,hword,hcurrent,hother⟩ :=
    (rules_of_run hread).2 ⟨haround,hobject (by decide),hrs,rfl⟩
  obtain rfl := List.right_unique_forall₂' (R := Spells) (fun _ _ _ => Spells.unique) hps
    (.cons hb₁ (.cons ha (.cons hb₂ .nil)))
  refine ⟨hread,hother hrearranged (hobject (by decide)),?_,?_⟩
  · rw [hlookup]
    decide
  · rw [hword,hcurrent]
    decide

end Figure
end Lindenmayer
