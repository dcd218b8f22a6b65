import Lindenmayer.Proofs.Grammar.Table
import Lindenmayer.Proofs.Json.Keeping
import Lindenmayer.Proofs.Json.Number
import Lindenmayer.Proofs.Stored.Fields

/-! Configurations of figures that were read from a text and are written again. The writer has a
document for every table of rules, every word and every finite number; of what can be read it lacks
only the infinite numbers. -/

namespace Lindenmayer
open Json

/-! ### Tables of rules -/

namespace RuleTable

/-- The document of a table that has these pairs in its text. -/
def document (ps : List (Symbol × Word)) : Json :=
  .object (ps.map fun p => (some [p.1],.text p.2)) none

theorem readMembers_eq_ok_iff {ms : List (Option Word × Json)} {t u : RuleTable} :
    t.readMembers ms = .ok u ↔ ∃ ps : List (Symbol × Word),
      ms = ps.map (fun p => (some [p.1],.text p.2)) ∧
        ps.foldl (fun t p => t.insert p.1 p.2) t = u := by
  induction ms generalizing t with
  | nil => simp [readMembers]
  | cons m ms ih =>
    obtain ⟨k,v⟩ := m
    constructor
    · intro h
      obtain ⟨w,hk,h⟩ := bind_eq_ok.1 h
      obtain ⟨c,hw,h⟩ := bind_eq_ok.1 h
      obtain ⟨w',hv,h⟩ := bind_eq_ok.1 h
      obtain ⟨ps,rfl,hps⟩ := ih.1 h
      refine ⟨(c,w')::ps,?_,hps⟩
      rw [keyText_eq_ok_iff.1 hk,symbolOf_eq_ok_iff.1 hw,toWord_eq_ok_iff.1 hv]
      rfl
    · rintro ⟨ps,hms,hps⟩
      cases ps with
      | nil => cases hms
      | cons p ps =>
        obtain ⟨hm,rfl⟩ := List.cons.inj hms
        cases hm
        exact ih.2 ⟨ps,rfl,hps⟩

theorem ofJson_eq_ok_iff {v : Json} {t : RuleTable} :
    ofJson v = .ok t ↔ ∃ ps, v = document ps ∧ ofPairs ps = t := by
  constructor
  · intro h
    cases v with
    | object ms end? =>
      obtain ⟨_,hms,h⟩ := bind_eq_ok.1 h
      obtain ⟨_,hend,h⟩ := bind_eq_ok.1 h
      obtain rfl := ended_eq_ok hend
      obtain rfl := Except.ok.inj h
      obtain ⟨ps,rfl,hps⟩ := readMembers_eq_ok_iff.1 hms
      exact ⟨ps,rfl,hps⟩
    | _ => exact absurd h (refuse_ne_ok _ _ _)
  · rintro ⟨ps,rfl,rfl⟩
    exact bind_eq_ok.2 ⟨_,readMembers_eq_ok_iff.2 ⟨ps,rfl,rfl⟩,rfl⟩

theorem intact_toJson (t : RuleTable) : t.toJson.Intact := by
  have h : (Json.object ((t.pairs.map fun p => ([p.1],Json.text p.2)).map
      fun m => (some m.1,m.2)) none).Intact := by
    refine .object fun m hm => ?_
    obtain ⟨p,-,rfl⟩ := List.mem_map.1 hm
    exact .text p.2
  rwa [List.map_map] at h

theorem ofJson_toJson (t : RuleTable) : ofJson t.toJson = .ok t :=
  ofJson_eq_ok_iff.2 ⟨t.pairs,rfl,ofPairs_pairs t⟩

end RuleTable

/-! ### Colors and points -/

theorem Color.ofJson_numbers (c : Color) :
    Color.ofJson c.toJson = kept (c.channels.all Float32.isFinite) c :=
  (congrArg (Except.map Color.mk) (toList_numbers c.channels)).trans (map_kept _ _ _)

theorem Vec.ofJson_numbers (v : Vec) :
    Vec.ofJson v.toJson = kept ([v.x,v.y].all Float32.isFinite) v := by
  show ((single v.x).toSingle.bind fun x =>
    (single v.y).toSingle.bind fun y => .ok (Vec.mk x y)) = _
  rw [toSingle_number,toSingle_number]
  exact bind_kept (bind_kept (b := true) rfl)

theorem Color.ne_nan_of_ofJson {v : Json} {c : Color} (h : Color.ofJson v = .ok c) :
    ∀ x ∈ c.channels, x ≠ .nan := by
  intro x hx
  obtain ⟨xs,hxs,rfl⟩ := map_eq_ok.1 h
  obtain ⟨v,hv⟩ := exists_of_mem_toList hxs hx
  exact toSingle_ne_nan hv

theorem Vec.ne_nan_of_ofJson {v : Json} {p : Vec} (h : Vec.ofJson v = .ok p) :
    ∀ x ∈ [p.x,p.y], x ≠ .nan := by
  obtain ⟨a,b,-,ha,hb⟩ := exists_of_ofJson h
  exact List.forall_mem_cons.2 ⟨toSingle_ne_nan ha,List.forall_mem_singleton.2 (toSingle_ne_nan hb)⟩

/-! ### What is written -/

namespace Figure.Config
namespace Setting

def toJson : Setting → Json
  | .start x => .text x
  | .rules x => x.toJson
  | .generations x => .integer x.toNat
  | .root x => x.toJson
  | .color x => x.toJson
  | .length x | .scale x | .leftTurn x | .rightTurn x | .colorChange x | .weight x | .rotation x
  | .spin x => .single x

def numbers : Setting → List Float32
  | .start _ | .rules _ | .generations _ => []
  | .root x => [x.x,x.y]
  | .color x => x.channels
  | .length x | .scale x | .leftTurn x | .rightTurn x | .colorChange x | .weight x | .rotation x
  | .spin x => [x]

theorem intact_toJson (i : Setting) : i.toJson.Intact := by
  cases i with
  | start x => exact .text x
  | rules x => exact x.intact_toJson
  | generations x => exact intact_integer x.toNat
  | root x =>
    refine .list fun v hv => ?_
    simp only [List.mem_cons,List.not_mem_nil,or_false] at hv
    rcases hv with rfl | rfl
    · exact intact_number x.x
    · exact intact_number x.y
  | color x =>
    refine .list fun v hv => ?_
    obtain ⟨y,-,rfl⟩ := List.mem_map.1 hv
    exact intact_number y
  | length x | scale x | leftTurn x | rightTurn x | colorChange x | weight x | rotation x
  | spin x => exact intact_number x

end Setting

/-- Every field with its value, in the order in which they are written. -/
def settings (c : Config) : List Setting :=
  [.start c.start,.rules c.rules,.generations c.generations,.length c.length,.scale c.scale,
    .leftTurn c.leftTurn,.rightTurn c.rightTurn,.color c.color,.colorChange c.colorChange,
    .weight c.weight,.root c.root,.rotation c.rotation,.spin c.spin]

/-- All numbers but the one of the generations, which is an integer. -/
def numbers (c : Config) : List Float32 := c.settings.flatMap Setting.numbers

theorem toJson_eq (c : Config) :
    c.toJson = .record (c.settings.map fun i => (i.name,i.toJson)) := rfl

theorem replaced_settings (c : Config) : schema.replaced c.settings = c := by
  simp only [Schema.replaced,settings,List.foldl_cons,List.foldl_nil,schema,Setting.put]

/-- Every setting comes back, or it has a number that is not finite. -/
theorem exists_field (i : Setting) : ∃ f ∈ record.fields, f.name = schema.name i ∧
    ∀ c, f.set i.toJson c = kept (i.numbers.all Float32.isFinite) (schema.put i c) := by
  have hfield {α : Type} (k : ℕ) {name : String} {read : Json.Reader α} {put : α → Config → Config}
      (hf : record.fields[k]? = some (.optional name read put)) (hname : name = schema.name i)
      {x : α} (hread : read i.toJson = kept (i.numbers.all Float32.isFinite) x)
      (hput : put x = schema.put i) : ∃ f ∈ record.fields, f.name = schema.name i ∧
        ∀ c, f.set i.toJson c = kept (i.numbers.all Float32.isFinite) (schema.put i c) :=
    ⟨_,List.mem_of_getElem? hf,hname,fun c => hput ▸
      (congrArg (Except.map (put · c)) hread).trans (map_kept _ x (put · c))⟩
  have hnumber (x : Float32) : (single x).toSingle = kept ([x].all Float32.isFinite) x := by
    rw [toSingle_number,List.all_cons,List.all_nil,Bool.and_true]
  cases i with
  | start x => exact hfield 0 rfl rfl (x := x) rfl rfl
  | rules x => exact hfield 1 rfl rfl x.ofJson_toJson rfl
  | generations x =>
    have hx := toNatBelow_integer (x.toNat_lt.trans (by decide)) x.toNat_lt "u32"
    refine hfield 2 rfl rfl hx ?_
    funext c
    show { c with generations := UInt32.ofNat x.toNat } = { c with generations := x }
    rw [UInt32.ofNat_toNat]
  | length x => exact hfield 3 rfl rfl (hnumber x) rfl
  | scale x => exact hfield 4 rfl rfl (hnumber x) rfl
  | leftTurn x => exact hfield 5 rfl rfl (hnumber x) rfl
  | rightTurn x => exact hfield 6 rfl rfl (hnumber x) rfl
  | color x => exact hfield 7 rfl rfl (Color.ofJson_numbers x) rfl
  | colorChange x => exact hfield 8 rfl rfl (hnumber x) rfl
  | weight x => exact hfield 9 rfl rfl (hnumber x) rfl
  | root x => exact hfield 10 rfl rfl (Vec.ofJson_numbers x) rfl
  | rotation x => exact hfield 11 rfl rfl (hnumber x) rfl
  | spin x => exact hfield 12 rfl rfl (hnumber x) rfl

theorem intact_toJson (c : Config) : c.toJson.Intact := by
  rw [toJson_eq]
  refine intact_record fun m hm => ?_
  obtain ⟨i,-,rfl⟩ := List.mem_map.1 hm
  exact i.intact_toJson

theorem run_toJson (c : Config) :
    ofJson.run c.toJson.render = kept (c.numbers.all Float32.isFinite) c := by
  have hread : record.read c.toJson = kept (c.settings.all fun i => i.numbers.all Float32.isFinite)
      (schema.replaced c.settings) :=
    follows.read_settings exists_field (show (c.settings.map schema.name).Nodup from follows.nodup)
      (List.nil_subset _)
  rw [Reader.run_render _ c.intact_toJson,ofJson,hread,replaced_settings,numbers,List.all_flatMap]

/-! ### What was read before -/

theorem mem_numbers_put {c : Config} {i : Setting} {x : Float32} (h : x ∈ (i.put c).numbers) :
    x ∈ i.numbers ∨ x ∈ c.numbers := by
  cases i <;>
  · simp only [numbers,settings,Setting.put,Setting.numbers,List.flatMap_cons,List.flatMap_nil,
      List.nil_append,List.append_nil,List.mem_append,List.mem_cons,List.not_mem_nil,or_false,
      false_or] at h ⊢
    grind

/-- What a field sets is a setting of its own, without NaN. -/
theorem exists_setting {f : Json.Field Config} (hf : f ∈ record.fields) {v : Json} {c c' : Config}
    (h : f.set v c = .ok c') :
    ∃ i : Setting, i.name = f.name ∧ c' = i.put c ∧ ∀ x ∈ i.numbers, x ≠ .nan := by
  have hfield {α : Type} (i : α → Setting) {name : String} (hname : ∀ x, (i x).name = name)
      {read : Json.Reader α} (hread : ∀ {v x}, read v = .ok x → ∀ y ∈ (i x).numbers, y ≠ .nan)
      (hf : f = .optional name read fun x c => (i x).put c) :
      ∃ i : Setting, i.name = f.name ∧ c' = i.put c ∧ ∀ x ∈ i.numbers, x ≠ .nan := by
    subst hf
    have hmap : (read v).map (fun x => (i x).put c) = .ok c' := h
    obtain ⟨x,hx,rfl⟩ := map_eq_ok.1 hmap
    exact ⟨i x,hname x,rfl,hread hx⟩
  have hnumber {v x} (h : Json.toSingle v = .ok x) : ∀ y ∈ [x], y ≠ .nan :=
    List.forall_mem_singleton.2 (toSingle_ne_nan h)
  simp only [record,List.mem_cons,List.not_mem_nil,or_false] at hf
  rcases hf with hf | hf | hf | hf | hf | hf | hf | hf | hf | hf | hf | hf | hf
  · exact hfield .start (fun _ => rfl) nofun hf
  · exact hfield .rules (fun _ => rfl) nofun hf
  · exact hfield (fun n => .generations (.ofNat n)) (fun _ => rfl) nofun hf
  · exact hfield .length (fun _ => rfl) hnumber hf
  · exact hfield .scale (fun _ => rfl) hnumber hf
  · exact hfield .leftTurn (fun _ => rfl) hnumber hf
  · exact hfield .rightTurn (fun _ => rfl) hnumber hf
  · exact hfield .color (fun _ => rfl) Color.ne_nan_of_ofJson hf
  · exact hfield .colorChange (fun _ => rfl) hnumber hf
  · exact hfield .weight (fun _ => rfl) hnumber hf
  · exact hfield .root (fun _ => rfl) Vec.ne_nan_of_ofJson hf
  · exact hfield .rotation (fun _ => rfl) hnumber hf
  · exact hfield .spin (fun _ => rfl) hnumber hf

theorem ne_nan_of_run {t : Word} {c : Config} (h : ofJson.run t = .ok c) :
    ∀ x ∈ c.numbers, x ≠ .nan := by
  refine Record.holds_of_read (P := fun c => ∀ x ∈ c.numbers, x ≠ .nan) (by decide +kernel)
    (fun f hf v c c' hset hc x hx => ?_) (Reader.run_eq_ok.1 h).1
  obtain ⟨i,-,rfl,hi⟩ := exists_setting hf hset
  rcases mem_numbers_put hx with hx | hx
  · exact hi x hx
  · exact hc x hx

/-- Every configuration that was read comes back from the text that it is written as, unless one of
its numbers is infinite. None is ever NaN, and those that are infinite are written as null. -/
theorem run_toJson_of_run (t : Word) (c : Config) (h : ofJson.run t = .ok c) :
    (∀ x ∈ c.numbers, x.isNaN = false ∧ (single x = .null ↔ x.isInf = true)) ∧
      ((∀ x ∈ c.numbers, x.isInf = false) → ofJson.run c.toJson.render = .ok c) ∧
      ((∃ x ∈ c.numbers, x.isInf = true) →
        ofJson.run c.toJson.render = .error (.fault (.invalidType .null "f32"))) := by
  have hnan := ne_nan_of_run h
  have hfinite (x) (hx : x ∈ c.numbers) : x.isFinite = !x.isInf :=
    Scalar.isFinite_of_ne_nan (hnan x hx)
  rw [run_toJson]
  refine ⟨fun x hx => ⟨by simpa using hnan x hx,?_⟩,fun hinf => ?_,fun ⟨x,hx,hinf⟩ => ?_⟩
  · rw [single_eq_null_iff,hfinite x hx,Bool.not_eq_false']
  · have hall : c.numbers.all Float32.isFinite = true :=
      List.all_eq_true.2 fun x hx => by simp [hfinite x hx,hinf x hx]
    rw [hall]
    rfl
  · have hall : c.numbers.all Float32.isFinite = false :=
      List.all_eq_false.2 ⟨x,hx,by simp [hfinite x hx,hinf]⟩
    rw [hall]
    rfl

/-- Keys out of order and one of them twice, a member that is no field, a negative zero, and numbers
that are no singles. Then a list whose last item lies below the middle between the largest single
and the next power of two, but is rounded twice. -/
theorem run_toJson_of_run_rounded :
    let t := "\x7b\"rules\":\x7b\"b\":\"\",\"a\":\"\\u005bb]\",\"b\":\"a😀\"\x7d,".toList ++
      "\"x\":[null],\"color\":[16777217,1e-46,0.1],\"scale_factor\":-0,".toList ++
      "\"root\":[1e-45,3.4028235e38]\x7d".toList
    let c : Config := { initial with
      rules := (RuleTable.empty.insert 'a' "[b]".toList).insert 'b' "a😀".toList
      scale := .ofBits 0x80000000
      color := ⟨[16777216,0,.ofBits 0x3dcccccd]⟩
      root := ⟨.ofBits 1,.ofBits 0x7f7fffff⟩ }
    let t' := "[\"F\",\x7b\x7d,0,340282356779733661637539395458142568447]".toList
    let c' : Config :=
      { initial with start := ['F'], rules := .empty, generations := 0, length := .inf }
    (ofJson.run t = .ok c ∧ ofJson.run c.toJson.render = .ok c) ∧
      ofJson.run t' = .ok c' ∧ single c'.length = .null ∧
      ofJson.run c'.toJson.render = .error (.fault (.invalidType .null "f32")) := by
  intro t c t' c'
  have ht : ofJson.run t = .ok c := by decide +kernel
  have ht' : ofJson.run t' = .ok c' := by decide +kernel
  have hfinite : ∀ x ∈ c.numbers, x.isInf = false := by decide +kernel
  have hinfinite : ∃ x ∈ c'.numbers, x.isInf = true := by decide +kernel
  obtain ⟨-,hback,-⟩ := run_toJson_of_run t c ht
  obtain ⟨hwritten,-,hrefused⟩ := run_toJson_of_run t' c' ht'
  have hlength : c'.length ∈ c'.numbers := .head _
  exact ⟨⟨ht,hback hfinite⟩,ht',(hwritten _ hlength).2.2 (by decide +kernel),hrefused hinfinite⟩

/-- Not every configuration that was read can be read again. -/
theorem not_forall_run_toJson : ¬ ∀ (t : Word) (c : Config), ofJson.run t = .ok c →
    ∃ d, ofJson.run c.toJson.render = .ok d ∧
      d.start = c.start ∧ d.rules = c.rules ∧ d.generations = c.generations := by
  intro h
  obtain ⟨d,hd,-⟩ := h "\x7b\"length\":1e39\x7d".toList { initial with length := .inf }
    (by decide +kernel)
  have hrefused : ofJson.run ({ initial with length := .inf } : Config).toJson.render =
      .error (.fault (.invalidType .null "f32")) := by
    decide +kernel
  rw [hrefused] at hd
  cases hd

end Figure.Config
end Lindenmayer
