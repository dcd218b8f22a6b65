import Lindenmayer.Proofs.Export.Lossless

/-! Where an export fails. Up to some symbol of the word all goes well; that symbol is refused by
the table, or gets its number but no module. The table is left with the names it had got by then. -/

namespace Lindenmayer

namespace NameTable

theorem exportWord_append (t : NameTable) (s : ModuleString) (v w : Word) :
    t.exportWord s (v++w) = match t.exportWord s v with
      | (u,.ok m) => u.exportWord m w
      | (u,.error why) => (u,.error why) := by
  induction v generalizing t s with
  | nil => rfl
  | cons c v ih =>
    rcases t.intern_cases [c] with ⟨i,-,hintern⟩ | ⟨hnone,-,-,hintern⟩ | ⟨-,-,hintern⟩
    · rw [List.cons_append,exportWord_cons_of_ok hintern,exportWord_cons_of_ok hintern]
      split
      · exact ih _ _
      · rfl
    · rw [List.cons_append,exportWord_cons_of_ok hintern,exportWord_cons_of_ok hintern]
      split
      · exact ih _ _
      · rfl
    · rw [List.cons_append,exportWord_cons_of_error hintern,exportWord_cons_of_error hintern]

theorem exportWord_append_of_ok {t u : NameTable} {s m : ModuleString} {v : Word}
    (h : t.exportWord s v = (u,.ok m)) (w : Word) :
    t.exportWord s (v++w) = u.exportWord m w := by rw [exportWord_append,h]

theorem exportWord_append_of_error {t u : NameTable} {s : ModuleString} {v : Word}
    {why : ExportFailure} (h : t.exportWord s v = (u,.error why)) (w : Word) :
    t.exportWord s (v++w) = (u,.error why) := by rw [exportWord_append,h]

theorem exportWord_ok_of_beginning {t : NameTable} {s : ModuleString} {v w : Word} (hv : v <+: w)
    (h : ∃ m, (t.exportWord s w).2 = .ok m) : ∃ m, (t.exportWord s v).2 = .ok m := by
  obtain ⟨r,rfl⟩ := hv
  obtain ⟨m,hm⟩ := h
  rcases he : t.exportWord s v with ⟨u,why | b⟩
  · rw [exportWord_append_of_error he] at hm
    cases hm
  · exact ⟨b,rfl⟩

theorem exportWord_ok {t u : NameTable} {w : Word} {m : ModuleString}
    (h : t.exportWord .empty w = (u,.ok m)) :
    w.length ≤ ModuleString.sizeLimit ∧ m.size = w.length ∧ Grows t u (t.newcomers w) := by
  have hwithin : ModuleString.empty.size+w.length ≤ ModuleString.sizeLimit ∧
      t.Admits (t.newcomers w) := by
    by_contra hbeyond
    obtain ⟨why,hwhy⟩ := exportWord_of_not_admits (Nat.zero_le _) hbeyond
    simp [h] at hwhy
  obtain ⟨v,ns,hexport,hgrows,hnames⟩ := exportWord_of_admits hwithin.1 hwithin.2
  rw [h,Prod.mk.injEq,Except.ok.injEq] at hexport
  obtain ⟨rfl,rfl⟩ := hexport
  have hlength : ns.length = w.length := by simpa using congrArg List.length hnames
  have hempty : ModuleString.empty.size = 0 := rfl
  rw [ModuleString.size_extend,hempty,Nat.zero_add,hlength]
  rw [hempty,Nat.zero_add] at hwithin
  exact ⟨hwithin.1,rfl,hgrows⟩

/-- An export that fails does so at one symbol, the part before it having gone out. -/
theorem exists_stop {t : NameTable} {s : ModuleString} {w : Word} {e : ExportFailure}
    (h : (t.exportWord s w).2 = .error e) :
    ∃ i x u m, w[i]? = some x ∧ t.exportWord s (w.take i) = (u,.ok m) ∧
      u.exportWord m [x] = ((t.exportWord s w).1,.error e) := by
  induction w generalizing t s with
  | nil => simp [exportWord] at h
  | cons c w ih =>
    rcases hc : t.exportWord s [c] with ⟨u,why | m⟩
    · have hwhole := exportWord_append_of_error hc w
      rw [List.singleton_append] at hwhole
      rw [hwhole] at h ⊢
      obtain rfl := Except.error.inj h
      exact ⟨0,c,t,s,rfl,rfl,hc⟩
    · have hwhole := exportWord_append_of_ok hc w
      rw [List.singleton_append] at hwhole
      rw [hwhole] at h ⊢
      obtain ⟨i,x,v,n,hx,hbefore,hstop⟩ := ih h
      refine ⟨i+1,x,v,n,hx,?_,hstop⟩
      rw [List.take_succ_cons,← List.singleton_append,exportWord_append_of_ok hc,hbefore]

theorem take_succ_of_getElem? {w : Word} {i : ℕ} {x : Symbol} (hx : w[i]? = some x) :
    w.take (i+1) = w.take i++[x] := by
  rw [List.take_add_one,hx]
  rfl

/-- If the part before a symbol goes out and the symbol then does not, just the parts that end
before that symbol go out. -/
theorem exportWord_take_ok_iff {t u v : NameTable} {s m : ModuleString} {w : Word} {i : ℕ}
    {x : Symbol} {e : ExportFailure} (hx : w[i]? = some x)
    (hbefore : t.exportWord s (w.take i) = (u,.ok m))
    (hstop : u.exportWord m [x] = (v,.error e)) (j : ℕ) :
    (∃ n, (t.exportWord s (w.take j)).2 = .ok n) ↔ j ≤ i := by
  have hfails : ¬ ∃ n, (t.exportWord s (w.take (i+1))).2 = .ok n := by
    rw [take_succ_of_getElem? hx,exportWord_append_of_ok hbefore,hstop]
    rintro ⟨_,⟨⟩⟩
  constructor
  · intro hj
    by_contra hlater
    exact hfails (exportWord_ok_of_beginning (List.take_prefix_take_left (Nat.not_le.1 hlater)) hj)
  · intro hj
    exact exportWord_ok_of_beginning (List.take_prefix_take_left hj) ⟨m,by rw [hbefore]⟩

/-- How a single symbol fails. If the table refuses it nothing has changed; otherwise the symbol is
a name when it finds no room in the string. -/
theorem exportWord_singleton_error {t u : NameTable} {s : ModuleString} {x : Symbol}
    {e : ExportFailure} (h : t.exportWord s [x] = (u,.error e)) :
    (t.number? [x] = none ∧ t.intern [x] = (t,.error t.refusal) ∧ u = t ∧
      e = .refused x t.refusal) ∨
    (ModuleString.sizeLimit ≤ s.size ∧ e = .full ∧ Grows t u (t.newcomers [x]) ∧
      ∃ n, t.intern [x] = (u,.ok n) ∧ u.name? n = some [x]) := by
  rcases t.intern_cases [x] with ⟨i,hi,hintern⟩ | ⟨hnone,-,-,hintern⟩ | ⟨hnone,-,hintern⟩
  · rw [exportWord_cons_of_ok hintern] at h
    split at h
    · cases h
    · rename_i hfull
      cases h
      rw [newcomers_cons_of_mem (mem_of_name? hi)]
      exact .inr ⟨Nat.not_lt.1 hfull,rfl,.refl t,i,hintern,hi⟩
  · rw [exportWord_cons_of_ok hintern] at h
    split at h
    · cases h
    · rename_i hfull
      cases h
      rw [newcomers_cons_of_none hnone]
      exact .inr ⟨Nat.not_lt.1 hfull,rfl,(Grows.refl _).cons,t.size,hintern,
        name?_add_size t [x] hnone⟩
  · rw [exportWord_cons_of_error hintern] at h
    cases h
    exact .inl ⟨hnone,hintern,rfl,rfl⟩

theorem map_newcomers_singleton (t : NameTable) (x : Symbol) :
    (t.newcomers [x]).map (fun c => [c]) = if t.number? [x] = none then [[x]] else [] := by
  by_cases hx : t.number? [x] = none
  · rw [newcomers_cons_of_none hx,if_pos hx]
    rfl
  · have hmem : [x] ∈ t.names.toList := by
      by_contra hnot
      exact hx (number?_eq_none_iff.2 hnot)
    rw [newcomers_cons_of_mem hmem,if_neg hx]
    rfl

theorem message_refusal (t : NameTable) : t.refusal.message =
    if 65535 ≤ t.size then "ID overflow" else "Interner heap overflow" :=
  apply_ite Refusal.message _ _ _

end NameTable

open NameTable

/-- Let an export fail. There is a symbol `x`, `i` symbols into the word, such that the word goes
out up to `x` and not up to any later symbol. The table then has, after its old names, the new
symbols before `x` in the order in which they came. Either `x` is none of its names and it refuses
`x`, for want of numbers or else of room; that is the failure, and the table stays as it is. Or a
million symbols went out before; then the failure is that the string is full, and `x` has become a
name as well, if it was none. Old names keep their numbers, and no symbol that is met later gets
one. -/
theorem LSystem.exportTo_failing (s : LSystem) (t : NameTable) {e : ExportFailure}
    (h : (s.exportTo t).2 = .error e) :
    ∃ i x, s.current[i]? = some x ∧
      (∀ j, (∃ m, (t.exportWord .empty (s.current.take j)).2 = .ok m) ↔ j ≤ i) ∧
      let before := (t.exportWord .empty (s.current.take i)).1
      let after := (s.exportTo t).1
      before.names.toList =
        t.names.toList ++ (t.newcomers (s.current.take i)).map (fun c => [c]) ∧
      ((∃ why, before.number? [x] = none ∧ before.intern [x] = (before,.error why) ∧
          why.message = (if 65535 ≤ before.size then "ID overflow" else "Interner heap overflow") ∧
          e = .refused x why ∧ after = before) ∨
        (i = 1000000 ∧ e = .full ∧
          (∃ n, before.intern [x] = (after,.ok n) ∧ after.name? n = some [x]) ∧
          after.names.toList =
            before.names.toList ++ if before.number? [x] = none then [[x]] else [])) ∧
      (∀ w n, t.number? w = some n → after.number? w = some n) ∧
      ∀ c, c ∉ s.current.take (i+1) → after.number? [c] = t.number? [c] := by
  obtain ⟨i,x,u,m,hx,hbefore,hstop⟩ := exists_stop h
  obtain ⟨hlength,hsize,hgrows⟩ := exportWord_ok hbefore
  refine ⟨i,x,hx,exportWord_take_ok_iff hx hbefore hstop,?_⟩
  intro before after
  obtain rfl : before = u := congrArg Prod.fst hbefore
  have hkept {v : Word} (hg : Grows t after v) (hv : ∀ c ∈ v, c ∈ s.current.take (i+1)) :
      (∀ w n, t.number? w = some n → after.number? w = some n) ∧
        ∀ c, c ∉ s.current.take (i+1) → after.number? [c] = t.number? [c] :=
    ⟨fun w n => hg.number?,fun c hc => hg.number?_of_not_mem fun hm => hc (hv c hm)⟩
  have hold : ∀ c ∈ t.newcomers (s.current.take i), c ∈ s.current.take (i+1) := fun c hc => by
    rw [take_succ_of_getElem? hx]
    exact List.mem_append_left _ (mem_newcomers.1 hc).1
  refine ⟨hgrows.names,?_⟩
  rcases exportWord_singleton_error hstop with ⟨hnone,hintern,hafter,he⟩ |
    ⟨hfull,he,hnew,hintern⟩
  · have hg : Grows t after (t.newcomers (s.current.take i)) := by
      rw [show after = before from hafter]
      exact hgrows
    exact ⟨.inl ⟨_,hnone,hintern,message_refusal before,he,hafter⟩,hkept hg hold⟩
  · have hmillion : i = 1000000 := by
      have hlen : (s.current.take i).length = i :=
        List.length_take_of_le (Nat.le_of_lt (List.getElem?_eq_some_iff.1 hx).1)
      rw [hsize] at hfull
      rw [hlen] at hfull hlength
      exact Nat.le_antisymm hlength hfull
    refine ⟨.inr ⟨hmillion,he,hintern,?_⟩,hkept (hgrows.trans hnew) fun c hc => ?_⟩
    · rw [← map_newcomers_singleton]
      exact hnew.names
    · rcases List.mem_append.1 hc with hc | hc
      · exact hold c hc
      · rw [take_succ_of_getElem? hx]
        exact List.mem_append_right _ (mem_newcomers.1 hc).1

/-- There is room for three bytes. The letters `A` and `B` take one each, and `é` needs two, so it
is refused; the `C` after it, for which there would be room, is never met. -/
theorem LSystem.exportTo_failing_room :
    let s := new ['A','B','A','é','C'] .empty
    let out := s.exportTo (.empty 3)
    out.2 = .error (.refused 'é' .room) ∧ out.1.names.toList = [['A'],['B']] ∧
      out.1.number? ['C'] = none := by
  intro s out
  let t := NameTable.empty 3
  have hnew (w : Word) : t.newcomers w = (w.filter fun _ => true).eraseDups := rfl
  have hgoes : ∃ m, (t.exportWord .empty ['A','B','A']).2 = .ok m := by
    refine (exportTo_ok_iff (new ['A','B','A'] .empty) t).2 ⟨by decide,?_⟩
    rw [hnew]
    exact fun _ => ⟨by decide,show 0+2 ≤ 3 by decide⟩
  have hstays : ¬ ∃ m, (t.exportWord .empty ['A','B','A','é']).2 = .ok m := by
    intro hm
    have hroom := ((exportTo_ok_iff (new ['A','B','A','é'] .empty) t).1 hm).2
    rw [hnew] at hroom
    exact absurd (hroom (by decide)).2 (show ¬ 0+4 ≤ 3 by decide)
  obtain ⟨e,he⟩ : ∃ e, out.2 = .error e := by
    rcases hout : out.2 with e | m
    · exact ⟨e,rfl⟩
    · have hwhole : ∃ m, (t.exportWord .empty (['A','B','A','é']++['C'])).2 = .ok m := ⟨m,hout⟩
      exact absurd (exportWord_ok_of_beginning (List.prefix_append _ _) hwhole) hstays
  obtain ⟨i,x,hx,hiff,hbefore,hstop,-,hlater⟩ := exportTo_failing s t he
  obtain rfl : i = 3 := Nat.le_antisymm
    (Nat.lt_succ_iff.1 (Nat.not_le.1 fun h => hstays ((hiff 4).2 h))) ((hiff 3).1 hgoes)
  obtain rfl : 'é' = x := Option.some.inj hx
  have htable : (t.exportWord .empty (s.current.take 3)).1.names.toList = [['A'],['B']] := hbefore
  have hsize : (t.exportWord .empty (s.current.take 3)).1.size = 2 := by
    rw [size,← Array.length_toList,htable]
    rfl
  have hnone : t.number? ['C'] = none := number?_eq_none_iff.2 List.not_mem_nil
  rcases hstop with ⟨why,-,-,hwhy,hwhat,hafter⟩ | ⟨hmillion,-⟩
  · rw [hsize,if_neg (by decide)] at hwhy
    have hroom : why = .room := by
      cases why with
      | numbers => exact absurd hwhy (by decide)
      | room => rfl
    refine ⟨by rw [he,hwhat,hroom],?_,(hlater 'C' (by decide)).trans hnone⟩
    rw [show out.1 = _ from hafter]
    exact htable
  · exact absurd hmillion (by decide)

end Lindenmayer
