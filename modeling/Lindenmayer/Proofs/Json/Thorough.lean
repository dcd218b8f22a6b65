import Lindenmayer.Proofs.Json.Acceptance
import Lindenmayer.Proofs.Json.Schema

/-! Readers that take nothing but whole values. What such a reader makes of a text alone it makes of
it wherever it stands. -/

namespace Lindenmayer.Json

/-- A reader that takes nothing that cannot be stepped over. -/
def Reader.Thorough {α : Type} (read : Reader α) : Prop :=
  ∀ ⦃v : Json⦄ ⦃x : α⦄, read v = .ok x → v.skip = .ok ()

theorem Reader.Thorough.readsAs {α : Type} {read : Reader α} (hread : read.Thorough) {t : Word}
    {x : α} (h : read.run t = .ok x) : ∃ v, ReadsAs t v ∧ read v = .ok x := by
  obtain ⟨hroot,hfollowed⟩ := Reader.run_eq_ok.1 h
  have hform := Document.wellFormed_of_whole ⟨hfollowed,hread hroot⟩
  obtain ⟨v,hv,-⟩ := hform.readsAs
  rw [hv.ofText] at hroot
  exact ⟨v,hv,hroot⟩

theorem ended_eq_ok {end? : Option Break} {u : Unit} (h : ended end? = .ok u) : end? = none := by
  cases end? with
  | none => rfl
  | some b => simp [ended,fail] at h

theorem refuse_ne_ok {α : Type} (wanted : String) (v : Json) (x : α) :
    v.refuse wanted ≠ .ok x := by
  intro h
  obtain ⟨_,-,hthrow⟩ := bind_eq_ok.1 h
  simp [throw,throwThe,MonadExceptOf.throw] at hthrow

theorem keyText_eq_ok_iff {k : Option Word} {w : Word} : keyText k = .ok w ↔ k = some w := by
  cases k <;> simp [keyText,malformed]

theorem symbolOf_eq_ok_iff {w : Word} {c : Symbol} : symbolOf w = .ok c ↔ w = [c] := by
  match w with
  | [] => simp [symbolOf]
  | [d] => simp [symbolOf]
  | _::_::_ => simp [symbolOf]

theorem toWord_eq_ok_iff {v : Json} {w : Word} : v.toWord = .ok w ↔ v = .text w := by
  refine ⟨fun h => ?_,fun h => h ▸ rfl⟩
  match v with
  | .string (some _) =>
    obtain rfl := Except.ok.inj h
    rfl
  | .string none | .null | .bool _ | .number _ | .list _ _ | .object _ _ | .broken _ =>
    exact absurd h (refuse_ne_ok _ _ _)

theorem thorough_of_refuse {α : Type} {read : Reader α} {wanted : String}
    (hlist : ∀ vs end?, read (.list vs end?) = refuse wanted (.list vs end?))
    (hobject : ∀ ms end?, read (.object ms end?) = refuse wanted (.object ms end?))
    (hbroken : ∀ b, read (.broken b) = refuse wanted (.broken b)) : read.Thorough := by
  intro v x h
  cases v with
  | list vs end? => exact absurd (hlist vs end? ▸ h) (refuse_ne_ok wanted _ x)
  | object ms end? => exact absurd (hobject ms end? ▸ h) (refuse_ne_ok wanted _ x)
  | broken b => exact absurd (hbroken b ▸ h) (refuse_ne_ok wanted _ x)
  | _ => rfl

theorem thorough_toBool : toBool.Thorough :=
  thorough_of_refuse (fun _ _ => rfl) (fun _ _ => rfl) fun _ => rfl
theorem thorough_toWord : toWord.Thorough :=
  thorough_of_refuse (fun _ _ => rfl) (fun _ _ => rfl) fun _ => rfl
theorem keyOf_iff (k : List Char) (w : Word) : KeyOf k w ↔ toWord.run k = .ok w := by
  refine ⟨KeyOf.word,fun h => ⟨?_,h⟩⟩
  obtain ⟨hroot,hfollowed⟩ := Reader.run_eq_ok.1 h
  have hform := Document.wellFormed_of_whole ⟨hfollowed,thorough_toWord hroot⟩
  obtain ⟨v,hv,-,hkey⟩ := hform.exists_tree
  rw [hv.ofText] at hroot
  cases v with
  | string w => exact hkey w rfl
  | _ => exact (refuse_ne_ok _ _ w hroot).elim

theorem thorough_toSingle : toSingle.Thorough :=
  thorough_of_refuse (fun _ _ => rfl) (fun _ _ => rfl) fun _ => rfl
theorem thorough_toNatBelow (bound : Nat) (wanted : String) :
    (toNatBelow bound wanted).Thorough :=
  thorough_of_refuse (fun _ _ => rfl) (fun _ _ => rfl) fun _ => rfl

theorem thorough_toList {α : Type} (item : Reader α) : (toList item).Thorough := by
  intro v x h
  cases v with
  | list vs end? =>
    obtain ⟨_,-,h⟩ := bind_eq_ok.1 h
    obtain ⟨_,hend,-⟩ := bind_eq_ok.1 h
    rw [ended_eq_ok hend]
    rfl
  | object | broken => exact (refuse_ne_ok _ _ x h).elim
  | _ => rfl

theorem Reader.Thorough.map {α β : Type} {read : Reader α} (hread : read.Thorough) (f : α → β) :
    Reader.Thorough fun v => (read v).map f := by
  intro v x h
  cases hx : read v with
  | error => simp [hx,Except.map] at h
  | ok => exact hread hx

namespace Record
variable {σ : Type} {r : Record σ}

theorem end?_of_readItems {end? : Option Break} {fields : List (Field σ)} {vs : List Json} {n : Nat}
    {s s' : σ} (h : r.readItems end? n s fields vs = .ok s') : end? = none := by
  induction vs generalizing fields n s with
  | nil =>
    cases fields <;>
    · obtain ⟨_,hend,-⟩ := bind_eq_ok.1 h
      exact ended_eq_ok hend
  | cons v vs ih =>
    cases fields with
    | nil => simp [readItems,malformed] at h
    | cons f fields =>
      obtain ⟨_,-,h⟩ := bind_eq_ok.1 h
      exact ih h

theorem thorough_read (r : Record σ) : r.read.Thorough := by
  intro v x h
  cases v with
  | list vs end? =>
    rw [end?_of_readItems h]
    rfl
  | object ms end? =>
    obtain ⟨_,-,h⟩ := bind_eq_ok.1 h
    obtain ⟨_,hend,-⟩ := bind_eq_ok.1 h
    rw [ended_eq_ok hend]
    rfl
  | broken => exact (refuse_ne_ok _ _ x h).elim
  | _ => rfl

end Record

theorem Record.exists_field {σ α : Type} (r : Record σ) (k : Nat) {f : Field σ}
    (hf : r.fields[k]? = some f) {name : String} (hname : f.name = name) {read : Reader α}
    (hread : read.Thorough) {t : Word} {x : α} (ht : read.run t = .ok x) {put : σ → σ}
    (hset : ∀ v s, read v = .ok x → f.set v s = .ok (put s)) :
    ∃ f ∈ r.fields, f.name = name ∧ ∃ v, ReadsAs t v ∧ ∀ s, f.set v s = .ok (put s) := by
  obtain ⟨v,hv,hx⟩ := hread.readsAs ht
  exact ⟨f,List.mem_of_getElem? hf,hname,v,hv,fun s => hset v s hx⟩

end Lindenmayer.Json
