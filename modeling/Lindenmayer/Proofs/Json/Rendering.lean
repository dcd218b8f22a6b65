import Lindenmayer.Proofs.Json.Fragment
import Lindenmayer.Proofs.Json.Quoted

/-! Whole trees are read back from their texts, token by token, wherever they stand. -/

namespace Lindenmayer.Json

/-- A tree no part of which is broken off or lacks its text. -/
inductive Intact : Json → Prop
  | null : Intact .null
  | bool (b : Bool) : Intact (.bool b)
  | number {n : Numeral} (hn : n.Written) : Intact (.number n)
  | text (w : Word) : Intact (.text w)
  | list {vs : List Json} (hvs : ∀ v ∈ vs, Intact v) : Intact (.list vs none)
  | object {ms : List (Word × Json)} (hms : ∀ m ∈ ms, Intact m.2) :
    Intact (.object (ms.map fun m => (some m.1,m.2)) none)

theorem intact_integer (n : Int) : Intact (.integer n) := .number (Numeral.written_ofInt n)

theorem intact_record {ms : List (String × Json)} (h : ∀ m ∈ ms, Intact m.2) :
    Intact (.record ms) := by
  have hms : Intact (.object ((ms.map fun m => (m.1.toList,m.2)).map
      fun m => (some m.1,m.2)) none) :=
    .object fun m hm => by
      obtain ⟨k,hk,rfl⟩ := List.mem_map.1 hm
      exact h k hk
  simpa [record,Function.comp_def] using hms

namespace Token

theorem next?_text {n : Numeral} (hn : n.Written) {r : List Char} (hr : Numeral.Ends r) :
    next? (n.text++r) = some (.plain (.number n),r) :=
  next?_of_scan (Numeral.text_cons hn) (Numeral.scan_text hn hr)

theorem next?_quote (w : Word) (r : List Char) :
    next? (Quoted.quote w++r) = some (.string (some w),r) := by
  have hq : Quoted.quote w++r = '"'::(w.flatMap Quoted.escaped ++ '"'::r) := by simp [Quoted.quote]
  rw [hq,next?_cons (by decide)]
  exact congrArg some (ofString_quote w r)

end Token

/-- The text of a tree is read as this tree, wherever a value may come next. -/
def ReadsBack (v : Json) : Prop := ReadsAs v.render v

theorem keyReadsAs_quote (w : Word) : KeyReadsAs (Quoted.quote w) (some w) := by
  intro p before within hp r
  rw [Progress.follow_of_next? (Token.next?_quote w _),hp]

theorem readsBack_list {vs : List Json} (hvs : ∀ v ∈ vs, v.ReadsBack) :
    (Json.list vs none).ReadsBack := by
  have hread : List.Forall₂ ReadsAs (vs.map render) vs :=
    List.forall₂_map_left_iff.2 (List.forall₂_same.2 hvs)
  have h := readsAs_list .nil hread
  rwa [ReadsBack,render,renderItems_eq]

theorem readsBack_object {ms : List (Word × Json)} (hms : ∀ m ∈ ms, m.2.ReadsBack) :
    (Json.object (ms.map fun m => (some m.1,m.2)) none).ReadsBack := by
  have hread : List.Forall₂ MemberReadsAs (ms.map fun m => (Quoted.quote m.1,m.2.render))
      (ms.map fun m => (some m.1,m.2)) := by
    refine List.forall₂_map_left_iff.2 (List.forall₂_map_right_iff.2 (List.forall₂_same.2 ?_))
    exact fun m hm => ⟨keyReadsAs_quote m.1,hms m hm⟩
  have h := readsAs_object .nil hread
  rw [ReadsBack,render,renderMembers_eq,List.map_map]
  rwa [objectText,List.map_map] at h

theorem Intact.readsBack {v : Json} (hv : v.Intact) : v.ReadsBack := by
  induction hv with
  | null => exact readsAs_of_next? (t := .plain .null) rfl (fun _ => rfl) fun r _ => rfl
  | bool b =>
    refine readsAs_of_next? (t := .plain (.bool b)) rfl (fun _ => rfl) fun r _ => ?_
    cases b <;> rfl
  | @number n hn =>
    exact readsAs_of_next? (t := .plain (.number n)) rfl (fun _ => rfl) fun r hr =>
      Token.next?_text hn hr
  | text w =>
    exact readsAs_of_next? (t := .string (some w)) rfl (fun _ => rfl) fun r _ =>
      Token.next?_quote w r
  | list _ ih => exact readsBack_list ih
  | object _ ih => exact readsBack_object ih

theorem Reader.run_render {α : Type} (read : Reader α) {v : Json} (hv : v.Intact) :
    Reader.run read v.render = read v := hv.readsBack.run read

end Lindenmayer.Json
