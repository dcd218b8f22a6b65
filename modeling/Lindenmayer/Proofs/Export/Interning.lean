import Lindenmayer.Export.NameTable
import Mathlib.Data.List.Basic

/-! What a table does with a name: a known one has its number, a new one gets the next number if the
numbers and the room last. The symbols of a word that are new to a table come in the order in which
they first stand in the word. -/

namespace Lindenmayer.NameTable

theorem number?_eq_none_iff {t : NameTable} {w : Word} :
    t.number? w = none ↔ w ∉ t.names.toList := by
  have hsome (i : Nat) : t.number? w = some i ↔ t.names.toList[i]? = some w := by
    rw [number?_eq_some_iff,name?,Array.getElem?_toList]
  constructor
  · intro h hw
    obtain ⟨i,hi⟩ := List.mem_iff_getElem?.1 hw
    simp [(hsome i).2 hi] at h
  · intro h
    cases hn : t.number? w with
    | none => rfl
    | some i => exact absurd (List.mem_of_getElem? ((hsome i).1 hn)) h

theorem mem_of_name? {t : NameTable} {i : Nat} {w : Word} (h : t.name? i = some w) :
    w ∈ t.names.toList :=
  List.mem_of_getElem? (by simpa [name?] using h)

theorem bytes_add (t : NameTable) (w : Word) (h : t.number? w = none) :
    (t.add w h).bytes = t.bytes+Word.byteSize w := rfl

theorem name?_add_size (t : NameTable) (w : Word) (h : t.number? w = none) :
    (t.add w h).name? t.size = some w := by
  simp [name?,size]

/-- Why the table would refuse a new name; the numbers are looked at first. -/
def refusal (t : NameTable) : Refusal := if sizeLimit ≤ t.size then .numbers else .room

theorem intern_cases (t : NameTable) (w : Word) :
    (∃ i, t.name? i = some w ∧ t.intern w = (t,.ok i)) ∨
    (∃ h : t.number? w = none, t.size < sizeLimit ∧ t.bytes+Word.byteSize w ≤ t.capacity ∧
      t.intern w = (t.add w h,.ok t.size)) ∨
    (t.number? w = none ∧ ¬ (t.size < sizeLimit ∧ t.bytes+Word.byteSize w ≤ t.capacity) ∧
      t.intern w = (t,.error t.refusal)) := by
  unfold intern refusal
  split
  · rename_i i hi
    exact .inl ⟨i,number?_eq_some_iff.1 hi,rfl⟩
  · rename_i hnone
    by_cases hsize : sizeLimit ≤ t.size
    · refine .inr (.inr ⟨hnone,fun h => absurd hsize (Nat.not_le.2 h.1),?_⟩)
      rw [if_pos hsize,if_pos hsize]
    · by_cases hroom : t.capacity < t.bytes+Word.byteSize w
      · refine .inr (.inr ⟨hnone,fun h => absurd hroom (Nat.not_lt.2 h.2),?_⟩)
        rw [if_neg hsize,if_pos hroom,if_neg hsize]
      · refine .inr (.inl ⟨hnone,Nat.not_le.1 hsize,Nat.not_lt.1 hroom,?_⟩)
        rw [if_neg hsize,if_neg hroom]

/-- The symbols of a word that are no names yet, each where it stands first. -/
def newcomers (t : NameTable) (w : Word) : Word :=
  (w.filter fun c => [c] ∉ t.names.toList).eraseDups

@[simp] theorem newcomers_nil (t : NameTable) : t.newcomers [] = [] := rfl

theorem newcomers_cons_of_mem {t : NameTable} {c : Symbol} (h : [c] ∈ t.names.toList) (w : Word) :
    t.newcomers (c::w) = t.newcomers w := by
  rw [newcomers,List.filter_cons_of_neg (by simpa using h)]
  rfl

theorem newcomers_cons_of_none {t : NameTable} {c : Symbol} (h : t.number? [c] = none) (w : Word) :
    t.newcomers (c::w) = c::(t.add [c] h).newcomers w := by
  have hc : [c] ∉ t.names.toList := number?_eq_none_iff.1 h
  have hw : (w.filter fun d => [d] ∉ (t.add [c] h).names.toList) =
      (w.filter fun d => [d] ∉ t.names.toList).filter fun d => !d == c := by
    rw [List.filter_filter]
    refine List.filter_congr fun d _ => ?_
    by_cases hd : d = c <;> simp [hd]
  rw [newcomers,newcomers,hw,List.filter_cons_of_pos (by simpa using hc),List.eraseDups_cons]

theorem mem_newcomers {t : NameTable} {w : Word} {c : Symbol} :
    c ∈ t.newcomers w ↔ c ∈ w ∧ t.number? [c] = none := by
  simp [newcomers,List.mem_eraseDups,number?_eq_none_iff]

theorem pairwise_newcomers (t : NameTable) (w : Word) :
    (t.newcomers w).Pairwise fun c d => w.idxOf c < w.idxOf d := by
  induction w generalizing t with
  | nil => exact .nil
  | cons x w ih =>
    -- Whether `x` is known or comes in now, it is none of the newcomers of the rest.
    have hshift {u : NameTable} (hx : x ∉ u.newcomers w) {c : Symbol} (hc : c ∈ u.newcomers w) :
        (x::w).idxOf c = w.idxOf c+1 := by
      refine List.idxOf_cons_ne w fun he => hx ?_
      rwa [he]
    have hlater {u : NameTable} (hx : x ∉ u.newcomers w) :
        (u.newcomers w).Pairwise fun c d => (x::w).idxOf c < (x::w).idxOf d := by
      refine (ih u).imp_of_mem fun hc hd hlt => ?_
      rw [hshift hx hc,hshift hx hd]
      exact Nat.succ_lt_succ hlt
    have hout {u : NameTable} (hu : [x] ∈ u.names.toList) : x ∉ u.newcomers w := fun hx =>
      number?_eq_none_iff.1 (mem_newcomers.1 hx).2 hu
    by_cases h : [x] ∈ t.names.toList
    · rw [newcomers_cons_of_mem h]
      exact hlater (hout h)
    · have hnone := number?_eq_none_iff.2 h
      have hx : x ∉ (t.add [x] hnone).newcomers w := hout (by simp)
      rw [newcomers_cons_of_none hnone]
      refine .cons (fun d hd => ?_) (hlater hx)
      rw [List.idxOf_cons_self,hshift hx hd]
      exact Nat.succ_pos _

/-- The table has numbers and room for all of these symbols, if there are any. -/
def Admits (t : NameTable) (v : Word) : Prop :=
  v ≠ [] → t.size+v.length ≤ sizeLimit ∧ t.bytes+Word.byteSize v ≤ t.capacity

theorem admits_nil (t : NameTable) : t.Admits [] := fun h => absurd rfl h

theorem admits_cons {t : NameTable} {c : Symbol} (h : t.number? [c] = none) (v : Word) :
    t.Admits (c::v) ↔ (t.size < sizeLimit ∧ t.bytes+Word.byteSize [c] ≤ t.capacity) ∧
      (t.add [c] h).Admits v := by
  cases v with
  | nil => exact ⟨fun h => ⟨h (List.cons_ne_nil c []),admits_nil _⟩,fun h _ => h.1⟩
  | cons d v =>
    simp only [Admits,ne_eq,reduceCtorEq,not_false_eq_true,true_implies,size_add,bytes_add,
      capacity_add,List.length_cons,Word.byteSize_cons,Word.byteSize_nil]
    omega

end Lindenmayer.NameTable
