import Mathlib.Data.List.Forall2
import Lindenmayer.Proofs.Json.Numeral
import Lindenmayer.Json.Reader

/-! Fragments of documents: texts that are read as one and the same tree wherever they stand. Lists
and objects of fragments are fragments, with any blanks between their parts. -/

namespace Lindenmayer.Json

theorem separated_cons (sep s : List Char) (ss : List (List Char)) :
    separated sep (s::ss) = s ++ ss.flatMap (sep++·) := by
  induction ss generalizing s with
  | nil => simp [separated]
  | cons t ss ih => simp [separated,ih]

namespace Blanks
variable {b : List Char}

theorem nil : Blanks [] := by simp [Blanks]

theorem isBlank (hb : Blanks b) : ∀ c ∈ b, Token.isBlank c = true := by
  intro c hc
  have hblank := hb c hc
  simp only [List.mem_cons,List.not_mem_nil,or_false] at hblank
  rcases hblank with rfl | rfl | rfl | rfl <;> rfl

end Blanks

namespace Numeral

theorem ends_nil : Ends [] := by simp [Ends]
theorem ends_cons {c : Char} (hc : isDigit c = false ∧ c ≠ '.' ∧ c ≠ 'e' ∧ c ≠ 'E')
    (r : List Char) : Ends (c::r) := by
  simpa [Ends] using hc

theorem ends_parts {α : Type} (f : α → List Char) (xs : List α) {c : Char}
    (hc : isDigit c = false ∧ c ≠ '.' ∧ c ≠ 'e' ∧ c ≠ 'E') (r : List Char) :
    Ends (xs.flatMap (fun x => ','::f x) ++ c::r) := by
  cases xs with
  | nil => exact ends_cons hc r
  | cons => exact ends_cons (by decide) _

theorem Ends.blanks {b r : List Char} (hb : Blanks b) (hr : Ends r) : Ends (b++r) := by
  cases b with
  | nil => exact hr
  | cons c b =>
    have hc := hb c (.head _)
    simp only [List.mem_cons,List.not_mem_nil,or_false] at hc
    rcases hc with rfl | rfl | rfl | rfl <;> exact ends_cons (by decide) _

end Numeral

namespace Token

/-- A token with which a value can begin. -/
def begins : Token → Bool
  | .plain _ | .string _ | .openList | .openObject => true
  | _ => false

theorem next?_cons {c : Char} (hc : isBlank c = false) (r : List Char) :
    next? (c::r) = some (scan c r) := by
  simp [next?,hc]

theorem next?_blanks {b : List Char} (hb : Blanks b) (r : List Char) : next? (b++r) = next? r := by
  have hdrop : (b++r).dropWhile isBlank = r.dropWhile isBlank :=
    List.dropWhile_append_of_pos hb.isBlank
  rw [next?,hdrop,next?]

theorem scan_numeral {c : Char} (hc : c = '-' ∨ isDigit c = true) (r : List Char) :
    scan c r = ofNumeral (c::r) := by
  unfold scan
  split
  case h_11 => simp [hc]
  all_goals exact absurd hc (by decide)

theorem isBlank_numeral {c : Char} (hc : c = '-' ∨ isDigit c = true) : isBlank c = false := by
  cases hb : isBlank c with
  | false => rfl
  | true =>
    simp only [isBlank,Bool.or_eq_true,beq_iff_eq] at hb
    rcases hb with ((rfl | rfl) | rfl) | rfl <;> exact absurd hc (by decide)

theorem next?_of_scan {s r : List Char} {n : Numeral}
    (hs : ∃ c t, s = c::t ∧ (c = '-' ∨ isDigit c = true)) (h : Numeral.scan (s++r) = .ok (n,r)) :
    next? (s++r) = some (.plain (.number n),r) := by
  obtain ⟨c,t,rfl,hc⟩ := hs
  rw [List.cons_append] at h ⊢
  rw [next?_cons (isBlank_numeral hc),scan_numeral hc,ofNumeral,h]

end Token

namespace Progress

theorem follow_of_none {s : List Char} (h : Token.next? s = none) (p : Progress) :
    p.follow s = p.finish := by
  rw [follow]
  split
  · rfl
  · rename_i h'; simp [h] at h'

theorem follow_nil (p : Progress) : p.follow [] = p.finish := follow_of_none rfl p

theorem follow_of_next? {s : List Char} {t : Token} {r : List Char}
    (h : Token.next? s = some (t,r)) (p : Progress) : p.follow s = (p.step t).follow r := by
  rw [follow]
  split
  · rename_i h'; simp [h] at h'
  · rename_i h'
    obtain ⟨rfl,rfl⟩ : t = _ ∧ r = _ := by simpa [h] using h'
    rfl

theorem follow_blanks {b : List Char} (hb : Blanks b) (p : Progress) (r : List Char) :
    p.follow (b++r) = p.follow r := by
  have hnext := Token.next?_blanks hb r
  cases h : Token.next? r with
  | none => rw [follow_of_none h,follow_of_none (hnext.trans h)]
  | some u => rw [follow_of_next? h,follow_of_next? (hnext.trans h)]

theorem follow_sign {c : Char} {t : Token} (hc : Token.isBlank c = false)
    (ht : ∀ r, Token.scan c r = (t,r)) (p : Progress) (r : List Char) :
    p.follow (c::r) = (p.step t).follow r := by
  have hnext := Token.next?_cons hc r
  rw [ht r] at hnext
  exact follow_of_next? hnext p

/-- Every value may come next. -/
def Awaits (p : Progress) (within : List Opened) : Prop :=
  ∀ t : Token, t.begins = true → p.step t = beginValue within t

theorem awaits_value (within : List Opened) : (value within).Awaits within := fun _ _ => rfl
theorem awaits_firstItem (within : List Opened) :
    (firstItem within).Awaits (.list []::within) := by
  intro t ht
  cases t with
  | plain | string | openList | openObject => rfl
  | _ => simp [Token.begins] at ht

/-- Every key may come next. -/
def AwaitsKey (p : Progress) (before : List (Option Word × Json)) (within : List Opened) : Prop :=
  ∀ k, p.step (.string k) = colon before k within

theorem awaitsKey_key (before : List (Option Word × Json)) (within : List Opened) :
    (key before within).AwaitsKey before within := fun _ => rfl
theorem awaitsKey_firstKey (within : List Opened) :
    (firstKey within).AwaitsKey [] within := fun _ => rfl

end Progress

/-- A text is read as a tree wherever a value may come next. -/
def ReadsAs (s : List Char) (v : Json) : Prop :=
  ∀ ⦃p : Progress⦄ ⦃within : List Opened⦄, p.Awaits within →
  ∀ ⦃r : List Char⦄, Numeral.Ends r → p.follow (s++r) = (Progress.more v within).follow r

/-- A text is read as a key wherever a key may come next. -/
def KeyReadsAs (s : List Char) (k : Option Word) : Prop :=
  ∀ ⦃p : Progress⦄ ⦃before : List (Option Word × Json)⦄ ⦃within : List Opened⦄,
    p.AwaitsKey before within →
  ∀ r, p.follow (s ++ ':'::r) = (Progress.colon before k within).follow (':'::r)

def MemberReadsAs (m : List Char × List Char) (u : Option Word × Json) : Prop :=
  KeyReadsAs m.1 u.1 ∧ ReadsAs m.2 u.2

theorem readsAs_of_next? {s : List Char} {v : Json} {t : Token} (ht : t.begins = true)
    (hbegin : ∀ within, Progress.beginValue within t = .more v within)
    (hnext : ∀ r, Numeral.Ends r → Token.next? (s++r) = some (t,r)) : ReadsAs s v := by
  intro p within hp r hr
  rw [Progress.follow_of_next? (hnext r hr),hp t ht,hbegin]

theorem ReadsAs.spaced {b s b' : List Char} {v : Json} (hb : Blanks b) (hs : ReadsAs s v)
    (hb' : Blanks b') : ReadsAs (b++s++b') v := by
  intro p within hp r hr
  rw [List.append_assoc,List.append_assoc,Progress.follow_blanks hb,hs hp (hr.blanks hb'),
    Progress.follow_blanks hb']

theorem ReadsAs.ofText {s : List Char} {v : Json} (hs : ReadsAs s v) :
    Document.ofText s = ⟨v,false⟩ := by
  have h := hs (Progress.awaits_value []) Numeral.ends_nil
  rw [List.append_nil,Progress.follow_nil] at h
  exact h

theorem ReadsAs.run {α : Type} (read : Reader α) {t : Word} {v : Json} (ht : ReadsAs t v) :
    read.run t = read v := by
  rw [Reader.run,ht.ofText]
  cases read v <;> rfl

namespace Progress

/-- The items of a list after the first, and its end. -/
theorem follow_items {ss : List (List Char)} {vs : List Json} (hss : List.Forall₂ ReadsAs ss vs)
    (before : List Json) (v₀ : Json) (within : List Opened) (r : List Char) :
    (more v₀ (.list before::within)).follow (ss.flatMap (fun s => ','::s) ++ ']'::r) =
      (more (.list (before.reverse++v₀::vs) none) within).follow r := by
  induction hss generalizing before v₀ with
  | nil =>
    rw [List.flatMap_nil,List.nil_append,follow_sign (t := .closeList) rfl fun _ => rfl]
    simp [step,Opened.close]
  | @cons s v ss vs hs _ ih =>
    have hr := Numeral.ends_parts (fun s => s) ss (c := ']') (by decide) r
    rw [List.flatMap_cons,List.append_assoc,List.cons_append,
      follow_sign (t := .comma) rfl fun _ => rfl]
    show (value (.list (v₀::before)::within)).follow (s ++ _) = _
    rw [hs (awaits_value _) hr]
    exact (ih (v₀::before) v).trans (by simp)

theorem follow_member {m : List Char × List Char} {u : Option Word × Json}
    (hm : MemberReadsAs m u) {p : Progress} {before : List (Option Word × Json)}
    {within : List Opened} (hp : p.AwaitsKey before within) {r : List Char}
    (hr : Numeral.Ends r) :
    p.follow (memberText m ++ r) = (more u.2 (.member before u.1::within)).follow r := by
  rw [memberText,List.append_assoc,List.cons_append,hm.1 hp,
    follow_sign (t := .colon) rfl fun _ => rfl]
  exact hm.2 (awaits_value (.member before u.1::within)) hr

/-- The members of an object after the first, and its end. -/
theorem follow_members {ms : List (List Char × List Char)} {us : List (Option Word × Json)}
    (hms : List.Forall₂ MemberReadsAs ms us) (before : List (Option Word × Json))
    (u₀ : Option Word × Json) (within : List Opened) (r : List Char) :
    (more u₀.2 (.member before u₀.1::within)).follow
        (ms.flatMap (fun m => ','::memberText m) ++ '\x7d'::r) =
      (more (.object (before.reverse ++ u₀::us) none) within).follow r := by
  induction hms generalizing before u₀ with
  | nil =>
    rw [List.flatMap_nil,List.nil_append,follow_sign (t := .closeObject) rfl fun _ => rfl]
    simp [step,Opened.close]
  | @cons m u ms us hm _ ih =>
    have hr := Numeral.ends_parts memberText ms (c := '\x7d') (by decide) r
    rw [List.flatMap_cons,List.append_assoc,List.cons_append,
      follow_sign (t := .comma) rfl fun _ => rfl]
    show (key (u₀::before) within).follow (memberText m ++ _) = _
    rw [follow_member hm (awaitsKey_key _ _) hr]
    exact (ih (u₀::before) u).trans (by simp)

end Progress

theorem readsAs_list {b : List Char} (hb : Blanks b) {ss : List (List Char)} {vs : List Json}
    (hss : List.Forall₂ ReadsAs ss vs) : ReadsAs (listText b ss) (.list vs none) := by
  intro p within hp r hr
  have hopen : p.step .openList = .firstItem within := hp .openList rfl
  rw [listText,List.append_assoc,List.cons_append,
    Progress.follow_sign (t := .openList) rfl fun _ => rfl,hopen,List.append_assoc,
    Progress.follow_blanks hb]
  cases hss with
  | nil => exact Progress.follow_sign (t := .closeList) rfl (fun _ => rfl) _ r
  | @cons s v ss vs hs hss =>
    have hr := Numeral.ends_parts (fun s => s) ss (c := ']') (by decide) r
    rw [separated_cons,List.append_assoc,List.cons_append,List.nil_append]
    exact (hs (Progress.awaits_firstItem within) hr).trans
      (Progress.follow_items hss [] v within r)

theorem readsAs_object {b : List Char} (hb : Blanks b) {ms : List (List Char × List Char)}
    {us : List (Option Word × Json)} (hms : List.Forall₂ MemberReadsAs ms us) :
    ReadsAs (objectText b ms) (.object us none) := by
  intro p within hp r hr
  have hopen : p.step .openObject = .firstKey within := hp .openObject rfl
  rw [objectText,List.append_assoc,List.cons_append,
    Progress.follow_sign (t := .openObject) rfl fun _ => rfl,hopen,List.append_assoc,
    Progress.follow_blanks hb]
  cases hms with
  | nil => exact Progress.follow_sign (t := .closeObject) rfl (fun _ => rfl) _ r
  | @cons m u ms us hm hms =>
    have hr := Numeral.ends_parts memberText ms (c := '\x7d') (by decide) r
    rw [List.map_cons,separated_cons,List.flatMap_map,List.append_assoc,List.cons_append,
      List.nil_append]
    exact (Progress.follow_member hm (Progress.awaitsKey_firstKey within) hr).trans
      (Progress.follow_members hms [] u within r)

end Lindenmayer.Json
