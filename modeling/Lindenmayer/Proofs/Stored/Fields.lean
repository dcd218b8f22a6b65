import Lindenmayer.Proofs.Json.Fields
import Lindenmayer.Proofs.Json.Thorough
import Lindenmayer.Proofs.Stored.LSystem
import Lindenmayer.Stored.Figure
import Lindenmayer.Stored.Turtle

/-! Configurations and systems depend on their known fields only, in whatever order a document has
them and whatever else stands in it. -/

namespace Lindenmayer
open Json

theorem Color.thorough_ofJson : Color.ofJson.Thorough := (thorough_toList _).map _

theorem Vec.exists_of_ofJson {v : Json} {p : Vec} (h : Vec.ofJson v = .ok p) :
    ∃ a b, v = .list [a,b] none ∧ Json.toSingle a = .ok p.x ∧ Json.toSingle b = .ok p.y := by
  match v with
  | .list [] _ =>
    obtain ⟨_,-,h⟩ := bind_eq_ok.1 h
    simp [throw,throwThe,MonadExceptOf.throw] at h
  | .list [a] _ =>
    obtain ⟨_,-,h⟩ := bind_eq_ok.1 h
    obtain ⟨_,-,h⟩ := bind_eq_ok.1 h
    simp [throw,throwThe,MonadExceptOf.throw] at h
  | .list [a,b] _ =>
    obtain ⟨x,hx,h⟩ := bind_eq_ok.1 h
    obtain ⟨y,hy,h⟩ := bind_eq_ok.1 h
    obtain ⟨_,hend,h⟩ := bind_eq_ok.1 h
    obtain rfl := ended_eq_ok hend
    obtain rfl := Except.ok.inj h
    exact ⟨a,b,rfl,hx,hy⟩
  | .list (_::_::_::_) _ =>
    obtain ⟨_,-,h⟩ := bind_eq_ok.1 h
    obtain ⟨_,-,h⟩ := bind_eq_ok.1 h
    simp [malformed,bind,Except.bind] at h
  | .null | .bool _ | .number _ | .string _ | .object _ _ | .broken _ =>
    exact (refuse_ne_ok _ _ p h).elim

theorem Vec.thorough_ofJson : Vec.ofJson.Thorough := by
  intro v p h
  obtain ⟨_,_,rfl,-⟩ := exists_of_ofJson h
  rfl

theorem RuleTable.thorough_ofJson : RuleTable.ofJson.Thorough := by
  intro v x h
  cases v with
  | object ms end? =>
    obtain ⟨_,-,h⟩ := bind_eq_ok.1 h
    obtain ⟨_,hend,-⟩ := bind_eq_ok.1 h
    rw [ended_eq_ok hend]
    rfl
  | list | broken => exact (refuse_ne_ok _ _ x h).elim
  | _ => rfl

theorem Grammar.thorough_ofJson : Grammar.ofJson.Thorough := Grammar.record.thorough_read

namespace Turtle.Config

/-- A field with a value for it. -/
inductive Setting
  | instructions (x : Word)
  | length (x : Float32)
  | leftTurn (x : Float32)
  | rightTurn (x : Float32)
  | color (x : Color)
  | colorChange (x : Float32)
  | weight (x : Float32)
  | changesColor (x : Bool)
  | showsHead (x : Bool)

namespace Setting

def name : Setting → String
  | .instructions _ => "instructions"
  | .length _ => "length"
  | .leftTurn _ => "left_turn_angle"
  | .rightTurn _ => "right_turn_angle"
  | .color _ => "color"
  | .colorChange _ => "color_change_rate"
  | .weight _ => "stroke_weight"
  | .changesColor _ => "rotate_color"
  | .showsHead _ => "show_head"

/-- The text, read alone as what the field takes, gives the value. -/
def Spelled (t : Word) : Setting → Prop
  | .instructions x => Json.toWord.run t = .ok x
  | .length x => Json.toSingle.run t = .ok x
  | .leftTurn x => Json.toSingle.run t = .ok x
  | .rightTurn x => Json.toSingle.run t = .ok x
  | .color x => Color.ofJson.run t = .ok x
  | .colorChange x => Json.toSingle.run t = .ok x
  | .weight x => Json.toSingle.run t = .ok x
  | .changesColor x => Json.toBool.run t = .ok x
  | .showsHead x => Json.toBool.run t = .ok x

def put (c : Config) : Setting → Config
  | .instructions x => { c with instructions := x }
  | .length x => { c with length := x }
  | .leftTurn x => { c with leftTurn := x }
  | .rightTurn x => { c with rightTurn := x }
  | .color x => { c with color := x }
  | .colorChange x => { c with colorChange := x }
  | .weight x => { c with weight := x }
  | .changesColor x => { c with changesColor := x }
  | .showsHead x => { c with showsHead := x }

end Setting

def schema : Json.Schema Config Setting where
  names := ["instructions","length","left_turn_angle","right_turn_angle","color",
    "color_change_rate","stroke_weight","rotate_color","show_head"]
  required := []
  initial := .initial
  name := Setting.name
  Spells := Setting.Spelled
  put i c := Setting.put c i

theorem follows : record.Follows schema where
  names := rfl
  nodup := by decide
  required := rfl
  initial := rfl
  reads {t i} ht := by
    cases i
    case' instructions => refine record.exists_field 0 rfl rfl thorough_toWord ht ?_
    case' length => refine record.exists_field 1 rfl rfl thorough_toSingle ht ?_
    case' leftTurn => refine record.exists_field 2 rfl rfl thorough_toSingle ht ?_
    case' rightTurn => refine record.exists_field 3 rfl rfl thorough_toSingle ht ?_
    case' color => refine record.exists_field 4 rfl rfl Color.thorough_ofJson ht ?_
    case' colorChange => refine record.exists_field 5 rfl rfl thorough_toSingle ht ?_
    case' weight => refine record.exists_field 6 rfl rfl thorough_toSingle ht ?_
    case' changesColor => refine record.exists_field 7 rfl rfl thorough_toBool ht ?_
    case' showsHead => refine record.exists_field 8 rfl rfl thorough_toBool ht ?_
    all_goals exact fun _ _ => congrArg (Except.map _)
  comm {i j} hname c := by
    cases i <;> cases j <;> first | rfl | exact absurd rfl hname

end Turtle.Config

namespace Figure.Config

inductive Setting
  | start (x : Word)
  | rules (x : RuleTable)
  | generations (x : UInt32)
  | length (x : Float32)
  | scale (x : Float32)
  | leftTurn (x : Float32)
  | rightTurn (x : Float32)
  | color (x : Color)
  | colorChange (x : Float32)
  | weight (x : Float32)
  | root (x : Vec)
  | rotation (x : Float32)
  | spin (x : Float32)

namespace Setting

def name : Setting → String
  | .start _ => "axiom"
  | .rules _ => "rules"
  | .generations _ => "generations"
  | .length _ => "length"
  | .scale _ => "scale_factor"
  | .leftTurn _ => "left_angle"
  | .rightTurn _ => "right_angle"
  | .color _ => "color"
  | .colorChange _ => "color_change_rate"
  | .weight _ => "stroke_weight"
  | .root _ => "root"
  | .rotation _ => "rotation"
  | .spin _ => "spin"

def Spelled (t : Word) : Setting → Prop
  | .start x => Json.toWord.run t = .ok x
  | .rules x => RuleTable.ofJson.run t = .ok x
  | .generations x => (Json.toNatBelow UInt32.size "u32").run t = .ok x.toNat
  | .root x => Vec.ofJson.run t = .ok x
  | .color x => Color.ofJson.run t = .ok x
  | .length x | .scale x | .leftTurn x | .rightTurn x | .colorChange x | .weight x | .rotation x
  | .spin x => Json.toSingle.run t = .ok x

def put (c : Config) : Setting → Config
  | .start x => { c with start := x }
  | .rules x => { c with rules := x }
  | .generations x => { c with generations := x }
  | .length x => { c with length := x }
  | .scale x => { c with scale := x }
  | .leftTurn x => { c with leftTurn := x }
  | .rightTurn x => { c with rightTurn := x }
  | .color x => { c with color := x }
  | .colorChange x => { c with colorChange := x }
  | .weight x => { c with weight := x }
  | .root x => { c with root := x }
  | .rotation x => { c with rotation := x }
  | .spin x => { c with spin := x }

end Setting

def schema : Json.Schema Config Setting where
  names := ["axiom","rules","generations","length","scale_factor","left_angle","right_angle",
    "color","color_change_rate","stroke_weight","root","rotation","spin"]
  required := []
  initial := .initial
  name := Setting.name
  Spells := Setting.Spelled
  put i c := Setting.put c i

theorem follows : record.Follows schema where
  names := rfl
  nodup := by decide
  required := rfl
  initial := rfl
  reads {t i} ht := by
    cases i
    case' start => refine record.exists_field 0 rfl rfl thorough_toWord ht ?_
    case' rules => refine record.exists_field 1 rfl rfl RuleTable.thorough_ofJson ht ?_
    case generations x =>
      refine record.exists_field 2 rfl rfl (thorough_toNatBelow _ _) ht fun v c hv => ?_
      have hset := congrArg (Except.map fun n => { c with generations := .ofNat n }) hv
      refine hset.trans ?_
      rw [Except.map,UInt32.ofNat_toNat]
      rfl
    case' length => refine record.exists_field 3 rfl rfl thorough_toSingle ht ?_
    case' scale => refine record.exists_field 4 rfl rfl thorough_toSingle ht ?_
    case' leftTurn => refine record.exists_field 5 rfl rfl thorough_toSingle ht ?_
    case' rightTurn => refine record.exists_field 6 rfl rfl thorough_toSingle ht ?_
    case' color => refine record.exists_field 7 rfl rfl Color.thorough_ofJson ht ?_
    case' colorChange => refine record.exists_field 8 rfl rfl thorough_toSingle ht ?_
    case' weight => refine record.exists_field 9 rfl rfl thorough_toSingle ht ?_
    case' root => refine record.exists_field 10 rfl rfl Vec.thorough_ofJson ht ?_
    case' rotation => refine record.exists_field 11 rfl rfl thorough_toSingle ht ?_
    case' spin => refine record.exists_field 12 rfl rfl thorough_toSingle ht ?_
    all_goals exact fun _ _ => congrArg (Except.map _)
  comm {i j} hname c := by
    cases i <;> cases j <;> first | rfl | exact absurd rfl hname

end Figure.Config

namespace LSystem.Seed

inductive Setting
  | start (x : Word)
  | grammar (x : Grammar)
  | generation (x : Nat)

namespace Setting

def name : Setting → String
  | .start _ => "axiom"
  | .grammar _ => "grammar"
  | .generation _ => "generation"

def Spelled (t : Word) : Setting → Prop
  | .start x => Json.toWord.run t = .ok x
  | .grammar x => Grammar.ofJson.run t = .ok x
  | .generation x => (Json.toNatBelow UInt64.size "usize").run t = .ok x

def put (s : Seed) : Setting → Seed
  | .start x => { s with start := x }
  | .grammar x => { s with grammar := x }
  | .generation x => { s with generation := x }

end Setting

/-- The current word is no field. -/
def schema : Json.Schema Seed Setting where
  names := ["axiom","grammar","generation"]
  required := ["axiom"]
  initial := ⟨[],.empty,0⟩
  name := Setting.name
  Spells := Setting.Spelled
  put i s := Setting.put s i

theorem follows : record.Follows schema where
  names := rfl
  nodup := by decide
  required := rfl
  initial := rfl
  reads {t i} ht := by
    cases i
    case' start => refine record.exists_field 0 rfl rfl thorough_toWord ht ?_
    case' grammar => refine record.exists_field 1 rfl rfl Grammar.thorough_ofJson ht ?_
    case' generation => refine record.exists_field 2 rfl rfl (thorough_toNatBelow _ _) ht ?_
    all_goals exact fun _ _ => congrArg (Except.map _)
  comm {i j} hname s := by
    cases i <;> cases j <;> first | rfl | exact absurd rfl hname

end LSystem.Seed

/-- Configurations and systems are read by their fields: in any order of the members of an object,
with any other members between them and any blanks, or in the order of a list. No field may occur
twice. A system needs its start only; its current word is no field but derived from the others. -/
theorem stored_readBy :
    Turtle.Config.schema.ReadBy id Turtle.Config.ofJson ∧
    Figure.Config.schema.ReadBy id Figure.Config.ofJson ∧
    LSystem.Seed.schema.ReadBy
      (fun s => { start := s.start, current := s.grammar.expand s.start s.generation,
                  generation := s.generation, grammar := s.grammar })
      LSystem.ofJson := by
  refine ⟨Turtle.Config.follows.readBy,Figure.Config.follows.readBy,?_⟩
  rw [← funext LSystem.Seed.grow_eq]
  exact LSystem.Seed.follows.readBy.map LSystem.Seed.grow

/-- Fields out of order, an unknown member twice and a known name deep inside another; a field that
occurs twice; a system that is a list. -/
theorem stored_readBy_mixed :
    Turtle.Config.ofJson.run
        ("\x7b \"show_head\" : true,\"x\":[1,\x7b\"length\":[null]\x7d],".toList ++
          "\"\\u006cength\": 2.5e0,\"x\":\"\\ud800\"\x7d\n".toList) =
      .ok { Turtle.Config.initial with length := 2.5, showsHead := true } ∧
    (∀ c, Figure.Config.ofJson.run
      "\x7b\"spin\":0,\"root\":null,\"spin\":0\x7d".toList ≠ .ok c) ∧
    LSystem.ofJson.run
      "[\"A\",\x7b\"rules\":[[\"A\",\"AB\"]]\x7d,2]".toList =
        .ok ⟨['A'],"ABB".toList,2,.ofPairs [('A',"AB".toList)]⟩ := by
  obtain ⟨hturtle,hfigure,hsystem⟩ := stored_readBy
  have hform : ∀ {t}, Json.skip.run t = .ok () → WellFormed t := fun h => (run_skip_iff _).1 h
  have hkey : ∀ {k w}, Json.toWord.run k = .ok w → KeyOf k w := fun h => (keyOf_iff _ _).2 h
  refine ⟨?_,?_,?_⟩
  · have hx : KeyOf "\"x\"".toList ['x'] := hkey (by decide +kernel)
    have hms : Turtle.Config.schema.Holds
        [(" \"show_head\" ".toList," true".toList),
          ("\"x\"".toList,"[1,\x7b\"length\":[null]\x7d]".toList),
          ("\"\\u006cength\"".toList," 2.5e0".toList),("\"x\"".toList,"\"\\ud800\"".toList)]
        [.showsHead true,.length 2.5] := by
      refine .known (hkey (by decide +kernel)) (show Json.toBool.run _ = _ by decide +kernel) ?_
      refine .other hx (by decide) (hform (by decide +kernel)) ?_
      refine .known (hkey (by decide +kernel)) (show Json.toSingle.run _ = _ by decide +kernel) ?_
      exact .other hx (by decide) (hform (by decide +kernel)) .nil
    have ht : ∀ ms, ObjectOf ms ([] ++ objectText [] ms ++ ['\n']) := fun _ =>
      .intro (by decide) (by decide) (by decide)
    have hread := hturtle.object (ht _) hms (.swap _ _ _) (by decide) (by decide)
    exact hread
  · have hspin : KeyOf "\"spin\"".toList "spin".toList := hkey (by decide +kernel)
    have hroot : KeyOf "\"root\"".toList "root".toList := hkey (by decide +kernel)
    have hzero : WellFormed ['0'] := hform (by decide +kernel)
    have ht : ObjectOf [("\"spin\"".toList,['0']),("\"root\"".toList,"null".toList),
        ("\"spin\"".toList,['0'])] ([] ++ objectText [] _ ++ []) :=
      .intro (by decide) (by decide) (by decide)
    refine hfigure.repeated ht ?_ (by decide) (.cons_cons _ (.cons _ (.refl _))) hspin hspin
    simp only [List.forall_mem_cons]
    exact ⟨⟨hspin.text,hzero⟩,⟨hroot.text,hform (by decide +kernel)⟩,⟨hspin.text,hzero⟩,nofun⟩
  · have hstart : LSystem.Seed.schema.Spells "\"A\"".toList (.start ['A']) :=
      show Json.toWord.run _ = _ by decide +kernel
    have hgrammar : LSystem.Seed.schema.Spells "\x7b\"rules\":[[\"A\",\"AB\"]]\x7d".toList
        (.grammar (.ofPairs [('A',"AB".toList)])) :=
      show Grammar.ofJson.run _ = _ by decide +kernel
    have hgeneration : LSystem.Seed.schema.Spells ['2'] (.generation 2) :=
      show (Json.toNatBelow UInt64.size "usize").run _ = _ by decide +kernel
    have ht : ∀ ts, ListOf ts ([] ++ listText [] ts ++ []) := fun _ =>
      .intro (by decide) (by decide) (by decide)
    exact hsystem.list (ht _) (.cons hstart (.cons hgrammar (.cons hgeneration .nil)))
      (by decide) (by decide)

end Lindenmayer
