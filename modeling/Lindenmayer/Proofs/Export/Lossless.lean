import Lindenmayer.Export.Modules
import Lindenmayer.Proofs.Export.Interning

/-! Export of words. A word goes out whole if its length and its new symbols are within the limits, and
then it can be read off the modules again. Whether it goes out is found symbol by symbol; here it is
said of the word as a whole. -/

namespace Lindenmayer

namespace ModuleString

/-- The string with bare modules of these numbers after it. -/
def extend (s : ModuleString) (ns : List Nat) : ModuleString :=
  { s with modules := s.modules ++ (ns.map Module.ofSymbol).toArray }

@[simp] theorem extend_nil (s : ModuleString) : s.extend [] = s := by simp [extend]
@[simp] theorem size_extend (s : ModuleString) (ns : List Nat) :
    (s.extend ns).size = s.size+ns.length := by simp [extend,size]
theorem extend_cons (s : ModuleString) (n : Nat) (ns : List Nat) :
    s.extend (n::ns) = (s.extend [n]).extend ns := by simp [extend]
theorem toList_modules_extend (ns : List Nat) :
    (empty.extend ns).modules.toList = ns.map Module.ofSymbol := by simp [extend,empty]
theorem symbols_extend (ns : List Nat) : (empty.extend ns).symbols = ns := by
  simp [symbols,toList_modules_extend,Module.ofSymbol,Function.comp_def]

theorem eq_ofSymbol_of_mem {ns : List Nat} {x : Module} (hx : x ∈ (empty.extend ns).modules) :
    x = .ofSymbol x.symbol := by
  have hmem : x ∈ ns.map Module.ofSymbol := by rwa [← toList_modules_extend,Array.mem_toList_iff]
  obtain ⟨n,-,rfl⟩ := List.mem_map.1 hmem
  rfl

theorem push?_of_lt {s : ModuleString} (h : s.size < sizeLimit) (n : Nat) :
    s.push? (.ofSymbol n) = some (s.extend [n]) := by simp [push?,h,extend]

theorem push?_of_le {s : ModuleString} (h : sizeLimit ≤ s.size) (m : Module) :
    s.push? m = none := by simp [push?,Nat.not_lt.2 h]

end ModuleString

namespace NameTable

/-- The table `u` is `t` with these symbols added as names. -/
structure Grows (t u : NameTable) (v : Word) : Prop where
  names : u.names.toList = t.names.toList ++ v.map fun c => [c]
  capacity : u.capacity = t.capacity

namespace Grows
variable {t u : NameTable} {v : Word}

theorem refl (t : NameTable) : Grows t t [] := ⟨by simp,rfl⟩

theorem cons {c : Symbol} {h : t.number? [c] = none} (hg : Grows (t.add [c] h) u v) :
    Grows t u (c::v) := ⟨by simp [hg.names],hg.capacity⟩

theorem trans {x y : NameTable} {a b : Word} (ha : Grows t x a) (hb : Grows x y b) :
    Grows t y (a++b) :=
  ⟨by rw [hb.names,ha.names,List.map_append,List.append_assoc],hb.capacity.trans ha.capacity⟩

theorem name? (hg : Grows t u v) {i : Nat} {w : Word} (h : t.name? i = some w) :
    u.name? i = some w := by
  have hi : t.names.toList[i]? = some w := by simpa [NameTable.name?] using h
  have hlt : i < t.names.toList.length := (List.getElem?_eq_some_iff.1 hi).1
  have hu : u.names.toList[i]? = some w := by
    rw [hg.names,List.getElem?_append_left hlt,hi]
  simpa [NameTable.name?] using hu

theorem number? (hg : Grows t u v) {w : Word} {i : Nat} (h : t.number? w = some i) :
    u.number? w = some i :=
  number?_eq_some_iff.2 (hg.name? (number?_eq_some_iff.1 h))

theorem number?_of_not_mem (hg : Grows t u v) {c : Symbol} (hc : c ∉ v) :
    u.number? [c] = t.number? [c] := by
  cases h : t.number? [c] with
  | some i => exact hg.number? h
  | none =>
    have hnew : [c] ∉ v.map fun d => [d] := by simpa using hc
    rw [number?_eq_none_iff] at h ⊢
    rw [hg.names,List.mem_append,not_or]
    exact ⟨h,hnew⟩

end Grows

theorem exportWord_cons_of_ok {t u : NameTable} {c : Symbol} {n : Nat}
    (h : t.intern [c] = (u,.ok n)) (s : ModuleString) (w : Word) :
    t.exportWord s (c::w) =
      if s.size < ModuleString.sizeLimit then u.exportWord (s.extend [n]) w
      else (u,.error .full) := by
  rw [exportWord,h]
  by_cases hs : s.size < ModuleString.sizeLimit
  · simp only [ModuleString.push?_of_lt hs,if_pos hs]
  · simp only [ModuleString.push?_of_le (Nat.not_lt.1 hs),if_neg hs]

theorem exportWord_cons_of_error {t u : NameTable} {c : Symbol} {why : Refusal}
    (h : t.intern [c] = (u,.error why)) (s : ModuleString) (w : Word) :
    t.exportWord s (c::w) = (u,.error (.refused c why)) := by
  rw [exportWord,h]

theorem exportWord_of_admits {t : NameTable} {s : ModuleString} {w : Word}
    (hlength : s.size+w.length ≤ ModuleString.sizeLimit) (hnew : t.Admits (t.newcomers w)) :
    ∃ u ns, t.exportWord s w = (u,.ok (s.extend ns)) ∧ Grows t u (t.newcomers w) ∧
      ns.map u.name? = w.map fun c => some [c] := by
  -- Each symbol leaves less of the word and of the limits, so the table and the string are general.
  induction w generalizing t s with
  | nil => exact ⟨t,[],by simp [exportWord],.refl t,rfl⟩
  | cons c w ih =>
    rw [List.length_cons] at hlength
    have hs : s.size < ModuleString.sizeLimit := by omega
    have hrest (n : Nat) : (s.extend [n]).size+w.length ≤ ModuleString.sizeLimit := by
      rw [ModuleString.size_extend,List.length_singleton]
      omega
    rcases t.intern_cases [c] with ⟨i,hi,hintern⟩ | ⟨hnone,-,-,hintern⟩ | ⟨hnone,hno,-⟩
    · rw [newcomers_cons_of_mem (mem_of_name? hi)] at hnew ⊢
      obtain ⟨u,ns,hexport,hgrows,hnames⟩ := ih (hrest i) hnew
      refine ⟨u,i::ns,?_,hgrows,?_⟩
      · rw [exportWord_cons_of_ok hintern,if_pos hs,hexport,← ModuleString.extend_cons]
      · rw [List.map_cons,List.map_cons,hnames,hgrows.name? hi]
    · rw [newcomers_cons_of_none hnone] at hnew ⊢
      obtain ⟨u,ns,hexport,hgrows,hnames⟩ := ih (hrest t.size) ((admits_cons hnone _).1 hnew).2
      refine ⟨u,t.size::ns,?_,hgrows.cons,?_⟩
      · rw [exportWord_cons_of_ok hintern,if_pos hs,hexport,← ModuleString.extend_cons]
      · rw [List.map_cons,List.map_cons,hnames,hgrows.name? (name?_add_size t [c] hnone)]
    · rw [newcomers_cons_of_none hnone] at hnew
      exact absurd ((admits_cons hnone _).1 hnew).1 hno

theorem exportWord_of_not_admits {t : NameTable} {s : ModuleString} {w : Word}
    (hs : s.size ≤ ModuleString.sizeLimit)
    (h : ¬ (s.size+w.length ≤ ModuleString.sizeLimit ∧ t.Admits (t.newcomers w))) :
    ∃ why, (t.exportWord s w).2 = .error why := by
  induction w generalizing t s with
  | nil => exact absurd ⟨hs,t.admits_nil⟩ h
  | cons c w ih =>
    rw [List.length_cons,← Nat.add_assoc,Nat.add_right_comm] at h
    rcases t.intern_cases [c] with ⟨i,hi,hintern⟩ | ⟨hnone,hsize,hroom,hintern⟩ |
      ⟨hnone,-,hintern⟩
    · rw [newcomers_cons_of_mem (mem_of_name? hi)] at h
      rw [exportWord_cons_of_ok hintern]
      by_cases hfull : s.size < ModuleString.sizeLimit
      · rw [if_pos hfull]
        exact ih (by simpa using Nat.succ_le_of_lt hfull) (by simpa using h)
      · exact ⟨.full,by rw [if_neg hfull]⟩
    · rw [newcomers_cons_of_none hnone,admits_cons hnone] at h
      rw [exportWord_cons_of_ok hintern]
      by_cases hfull : s.size < ModuleString.sizeLimit
      · rw [if_pos hfull]
        refine ih (by simpa using Nat.succ_le_of_lt hfull) fun hall => h ?_
        exact ⟨by simpa using hall.1,⟨hsize,hroom⟩,hall.2⟩
      · exact ⟨.full,by rw [if_neg hfull]⟩
    · exact ⟨.refused c t.refusal,by rw [exportWord_cons_of_error hintern]⟩

end NameTable

open NameTable

/-- A word is exported iff it is within the limits. -/
theorem LSystem.exportTo_ok_iff (s : LSystem) (t : NameTable) :
    (∃ m, (s.exportTo t).2 = .ok m) ↔
      s.current.length ≤ ModuleString.sizeLimit ∧ t.Admits (t.newcomers s.current) := by
  have hempty : ModuleString.empty.size+s.current.length = s.current.length := Nat.zero_add _
  constructor
  · rintro ⟨m,hm⟩
    by_contra h
    rw [← hempty] at h
    obtain ⟨why,herror⟩ := exportWord_of_not_admits (Nat.zero_le _) h
    exact absurd (hm.symm.trans herror) (by simp)
  · rintro ⟨hlength,hnew⟩
    rw [← hempty] at hlength
    obtain ⟨u,ns,hexport,-⟩ := exportWord_of_admits hlength hnew
    exact ⟨_,congrArg Prod.snd hexport⟩

/-- A word is exported iff it has at most a million symbols and the table has numbers and room for
those of its symbols that are new, if there are any. It then has one bare module for each symbol, in
order, whose name in the table is that symbol. The table has kept its names with their numbers, and
after them has the new symbols, each once, in the order in which the word first has them. -/
theorem LSystem.exportTo_lossless (s : LSystem) (t : NameTable) :
    let new := t.newcomers s.current
    let out := s.exportTo t
    ((∀ c, c ∈ new ↔ c ∈ s.current ∧ t.number? [c] = none) ∧
      new.Pairwise fun c d => s.current.idxOf c < s.current.idxOf d) ∧
    ((∃ m, out.2 = .ok m) ↔ s.current.length ≤ 1000000 ∧
      (new ≠ [] → t.size+new.length ≤ 65535 ∧ t.bytes+Word.byteSize new ≤ t.capacity)) ∧
    ∀ m, out.2 = .ok m →
      (m.modules.size = s.current.length ∧ ∀ x ∈ m.modules, x = .ofSymbol x.symbol) ∧
      m.symbols.map out.1.name? = s.current.map (fun c => some [c]) ∧
      out.1.names.toList = t.names.toList ++ new.map (fun c => [c]) ∧
      ∀ w i, t.number? w = some i → out.1.number? w = some i := by
  intro new out
  have hiff := s.exportTo_ok_iff t
  refine ⟨⟨fun c => mem_newcomers,pairwise_newcomers t s.current⟩,hiff,fun m hm => ?_⟩
  obtain ⟨hlength,hnew⟩ := hiff.1 ⟨m,hm⟩
  rw [← Nat.zero_add s.current.length] at hlength
  obtain ⟨u,ns,hexport,hgrows,hnames⟩ := exportWord_of_admits (s := .empty) hlength hnew
  have hout : out = (u,.ok (ModuleString.empty.extend ns)) := hexport
  rw [hout] at hm ⊢
  obtain rfl := Except.ok.inj hm
  have hcount : ns.length = s.current.length := by simpa using congrArg List.length hnames
  refine ⟨⟨?_,fun x hx => ModuleString.eq_ofSymbol_of_mem hx⟩,?_,hgrows.names,fun w i hi => ?_⟩
  · rw [← hcount,← Array.length_toList,ModuleString.toList_modules_extend,List.length_map]
  · rw [ModuleString.symbols_extend,hnames]
  · exact number?_eq_some_iff.2 (hgrows.name? (number?_eq_some_iff.1 hi))

/-- The table knows `s0` and `A` and has room for three bytes more: just those of the two new symbols
of the word, which stand there several times. -/
theorem LSystem.exportTo_lossless_full :
    let s := new ['A','B','A','é','B','A'] .empty
    ∃ t : NameTable, (t.names.toList = [['s','0'],['A']] ∧ t.capacity = 6) ∧
      ∃ m, (s.exportTo t).2 = .ok m ∧
        m.symbols.map (s.exportTo t).1.name? = s.current.map (fun c => some [c]) ∧
        (s.exportTo t).1.names.toList = [['s','0'],['A'],['B'],['é']] := by
  intro s
  have hempty : (NameTable.empty 6).number? ['s','0'] = none :=
    number?_eq_none_iff.2 List.not_mem_nil
  have hone : ((NameTable.empty 6).add ['s','0'] hempty).number? ['A'] = none :=
    number?_eq_none_iff.2 (by simp [NameTable.empty])
  let t := ((NameTable.empty 6).add ['s','0'] hempty).add ['A'] hone
  have hnames : t.names.toList = [['s','0'],['A']] := rfl
  have hnew : t.newcomers s.current = ['B','é'] := by
    rw [newcomers,hnames]
    decide
  have hlimit : t.size+['B','é'].length ≤ 65535 ∧ t.bytes+Word.byteSize ['B','é'] ≤ t.capacity :=
    ⟨show 2+2 ≤ 65535 by decide,Nat.le_refl 6⟩
  obtain ⟨-,hiff,hwhole⟩ := exportTo_lossless s t
  obtain ⟨m,hm⟩ := hiff.2 ⟨by decide,fun _ => by rw [hnew]; exact hlimit⟩
  obtain ⟨-,hspelled,hgrown,-⟩ := hwhole m hm
  refine ⟨t,⟨hnames,rfl⟩,m,hm,hspelled,?_⟩
  rw [hgrown,hnames,hnew]
  rfl

end Lindenmayer
