import Lindenmayer.Proofs.Export.Lossless

/-! One table for many exports. Each of them only adds names, also where it fails half-way, so what
was exported earlier can still be read off the table, and would be exported again as it was. -/

namespace Lindenmayer

namespace NameTable

def exportAll (t : NameTable) :
    List LSystem → NameTable × List (Except ExportFailure ModuleString)
  | [] => (t,[])
  | s::ss =>
    let (t,r) := s.exportTo t
    let (t,rs) := t.exportAll ss
    (t,r::rs)

@[simp] theorem exportAll_nil (t : NameTable) : t.exportAll [] = (t,[]) := rfl
@[simp] theorem exportAll_cons (t : NameTable) (s : LSystem) (ss : List LSystem) :
    t.exportAll (s::ss) = (((s.exportTo t).1.exportAll ss).1,
      (s.exportTo t).2::((s.exportTo t).1.exportAll ss).2) := rfl
theorem exportAll_append (t : NameTable) (ss more : List LSystem) :
    t.exportAll (ss++more) = (((t.exportAll ss).1.exportAll more).1,
      (t.exportAll ss).2 ++ ((t.exportAll ss).1.exportAll more).2) := by
  induction ss generalizing t with
  | nil => rfl
  | cons s ss ih =>
    rw [List.cons_append,exportAll_cons,exportAll_cons,ih]
    rfl

theorem grows_exportWord (t : NameTable) (s : ModuleString) (w : Word) :
    ∃ v, Grows t (t.exportWord s w).1 v := by
  induction w generalizing t s with
  | nil => exact ⟨[],.refl t⟩
  | cons c w ih =>
    rcases t.intern_cases [c] with ⟨i,-,hintern⟩ | ⟨hnone,-,-,hintern⟩ | ⟨-,-,hintern⟩
    · rw [exportWord_cons_of_ok hintern]
      by_cases hs : s.size < ModuleString.sizeLimit
      · rw [if_pos hs]
        exact ih t _
      · rw [if_neg hs]
        exact ⟨[],.refl t⟩
    · rw [exportWord_cons_of_ok hintern]
      by_cases hs : s.size < ModuleString.sizeLimit
      · rw [if_pos hs]
        obtain ⟨v,hv⟩ := ih (t.add [c] hnone) (s.extend [t.size])
        exact ⟨c::v,hv.cons⟩
      · rw [if_neg hs]
        exact ⟨[c],Grows.cons (h := hnone) (.refl _)⟩
    · rw [exportWord_cons_of_error hintern]
      exact ⟨[],.refl t⟩

theorem grows_exportAll (t : NameTable) (ss : List LSystem) :
    ∃ v, Grows t (t.exportAll ss).1 v := by
  induction ss generalizing t with
  | nil => exact ⟨[],.refl t⟩
  | cons s ss ih =>
    obtain ⟨x,hx⟩ := t.grows_exportWord .empty s.current
    obtain ⟨y,hy⟩ := ih (s.exportTo t).1
    exact ⟨x++y,hx.trans hy⟩

theorem exportWord_of_known {t : NameTable} {s : ModuleString} {w : Word} {ns : List Nat}
    (hlength : s.size+w.length ≤ ModuleString.sizeLimit)
    (h : ns.map t.name? = w.map fun c => some [c]) :
    t.exportWord s w = (t,.ok (s.extend ns)) := by
  induction w generalizing s ns with
  | nil =>
    obtain rfl : ns = [] := by simpa using h
    rw [exportWord,ModuleString.extend_nil]
  | cons c w ih =>
    obtain ⟨n,ns,rfl⟩ : ∃ n rest, ns = n::rest :=
      List.exists_cons_of_ne_nil (by rintro rfl; simp at h)
    obtain ⟨hn,hns⟩ : t.name? n = some [c] ∧ ns.map t.name? = w.map fun c => some [c] := by
      simpa using h
    have hnumber : t.number? [c] = some n := number?_eq_some_iff.2 hn
    have hintern : t.intern [c] = (t,.ok n) := by
      rcases t.intern_cases [c] with ⟨i,hi,hintern⟩ | ⟨hnone,-⟩ | ⟨hnone,-⟩
      · rw [hintern,Option.some.inj (hnumber.symm.trans (number?_eq_some_iff.2 hi))]
      · exact absurd (hnumber.symm.trans hnone) (by simp)
      · exact absurd (hnumber.symm.trans hnone) (by simp)
    rw [List.length_cons] at hlength
    have hs : s.size < ModuleString.sizeLimit := by omega
    have hrest : (s.extend [n]).size+w.length ≤ ModuleString.sizeLimit := by
      rw [ModuleString.size_extend,List.length_singleton]
      omega
    rw [exportWord_cons_of_ok hintern,if_pos hs,ih hrest hns,← ModuleString.extend_cons]

end NameTable

open NameTable

/-- What went out once is read off every later table, and goes out again without changing it. -/
theorem LSystem.exportTo_of_grows {s : LSystem} {t u : NameTable} {m : ModuleString} {v : Word}
    (hm : (s.exportTo t).2 = .ok m) (hv : Grows (s.exportTo t).1 u v) :
    m.symbols.map u.name? = s.current.map (fun c => some [c]) ∧ s.exportTo u = (u,.ok m) := by
  obtain ⟨hlength,hnew⟩ := (s.exportTo_ok_iff t).1 ⟨m,hm⟩
  rw [← Nat.zero_add s.current.length] at hlength
  obtain ⟨t',ns,hexport,-,hnames⟩ := exportWord_of_admits (s := .empty) hlength hnew
  have hout : s.exportTo t = (t',.ok (ModuleString.empty.extend ns)) := hexport
  rw [hout] at hm hv
  obtain rfl := Except.ok.inj hm
  have hlater : ns.map u.name? = s.current.map fun c => some [c] := by
    rw [← hnames]
    refine List.map_congr_left fun n hn => ?_
    obtain ⟨c,-,hc⟩ := List.mem_map.1 (hnames ▸ List.mem_map_of_mem hn)
    rw [← hc]
    exact hv.name? hc.symm
  rw [ModuleString.symbols_extend]
  exact ⟨hlater,exportWord_of_known hlength hlater⟩

/-- Let any systems be exported through one table, and then any more of them, whether they go out or
not. A name that has got a number in the first part has it to the end, and no name has two. All that
went out in the first part is spelled by the names in the last table, and would go out again as the
same modules, with no change to the table. -/
theorem NameTable.exportAll_shared (t : NameTable) (ss more : List LSystem) :
    let mid := t.exportAll ss
    let last := mid.1.exportAll more
    t.exportAll (ss++more) = (last.1,mid.2++last.2) ∧
    (∀ w i, mid.1.number? w = some i → last.1.number? w = some i) ∧
    (∀ w i j, last.1.name? i = some w → last.1.name? j = some w → i = j) ∧
    List.Forall₂ (fun s r => ∀ m, r = .ok m →
      m.symbols.map last.1.name? = s.current.map (fun c => some [c]) ∧
        s.exportTo last.1 = (last.1,.ok m)) ss mid.2 := by
  intro mid last
  obtain ⟨v,hv⟩ := mid.1.grows_exportAll more
  refine ⟨t.exportAll_append ss more,fun w i hi => ?_,fun w i j hi hj => ?_,?_⟩
  · exact number?_eq_some_iff.2 (hv.name? (number?_eq_some_iff.1 hi))
  · exact Option.some.inj ((number?_eq_some_iff.2 hi).symm.trans (number?_eq_some_iff.2 hj))
  · -- The last table has grown from each of those that the exports of the first part left.
    change Grows (t.exportAll ss).1 last.1 v at hv
    change List.Forall₂ _ ss (t.exportAll ss).2
    generalize last.1 = u at hv
    induction ss generalizing t with
    | nil => exact .nil
    | cons s ss ih =>
      rw [exportAll_cons] at hv
      obtain ⟨x,hx⟩ := (s.exportTo t).1.grows_exportAll ss
      exact .cons (fun m hm => LSystem.exportTo_of_grows hm (hx.trans hv)) (ih _ hv)

/-- Three bytes of room. The second word brings in its `C` and fails at its `D`, for which there is
no room left; the first one still goes out again. -/
theorem NameTable.exportAll_shared_full :
    let s := LSystem.new ['A','B','A'] .empty
    let d := LSystem.new ['C','D'] .empty
    let last := ((NameTable.empty 3).exportAll [s,d]).1
    ∃ m, ((NameTable.empty 3).exportAll [s]).2 = [.ok m] ∧
      (∀ x, (d.exportTo ((NameTable.empty 3).exportAll [s]).1).2 ≠ .ok x) ∧
      m.symbols.map last.name? = [some ['A'],some ['B'],some ['A']] ∧
      s.exportTo last = (last,.ok m) := by
  intro s d last
  have hnew : (NameTable.empty 3).newcomers s.current = ['A','B'] := by
    rw [newcomers,show (NameTable.empty 3).names.toList = [] from rfl]
    decide
  have hroom : (NameTable.empty 3).Admits ((NameTable.empty 3).newcomers s.current) := by
    rw [hnew]
    exact fun _ => ⟨by decide,show 0+2 ≤ 3 by decide⟩
  obtain ⟨u,ns,hexport,hgrows,-⟩ :=
    exportWord_of_admits (s := .empty) (w := s.current) (by decide) hroom
  let m := ModuleString.empty.extend ns
  have hfirst : (NameTable.empty 3).exportAll [s] = (u,[.ok m]) := by
    have hs : s.exportTo (NameTable.empty 3) = (u,.ok m) := hexport
    rw [exportAll_cons,hs]
    rfl
  have hnames : u.names.toList = [['A'],['B']] := by
    rw [hgrows.names,hnew]
    rfl
  have hfail : ¬ u.Admits (u.newcomers d.current) := by
    have hlater : u.newcomers d.current = ['C','D'] := by
      rw [newcomers,hnames]
      decide
    have hbytes : u.bytes = 2 := by
      rw [u.bytes_eq,hnames]
      rfl
    have hcapacity : u.capacity = 3 := hgrows.capacity
    rw [hlater]
    intro h
    have hle := (h (by decide)).2
    rw [hbytes,hcapacity] at hle
    exact absurd hle (by decide)
  obtain ⟨-,-,-,hall⟩ := exportAll_shared (NameTable.empty 3) [s] [d]
  rw [hfirst] at hall ⊢
  obtain ⟨hspelled,hagain⟩ := (List.forall₂_cons.1 hall).1 m rfl
  have hlast : (u.exportAll [d]).1 = last := by
    have happend := (NameTable.empty 3).exportAll_append [s] [d]
    rw [hfirst] at happend
    exact (congrArg Prod.fst happend).symm
  rw [hlast] at hspelled hagain
  exact ⟨m,rfl,fun x hx => hfail ((d.exportTo_ok_iff u).1 ⟨x,hx⟩).2,hspelled,hagain⟩

end Lindenmayer
