import Lindenmayer.Proofs.Json.Around
import Lindenmayer.Proofs.Json.Single

/-! Numbers that may not be finite in documents. Such a number is written as null, and null is
refused where a number is wanted: what is written comes back if all its numbers are finite, and
otherwise nothing does. -/

namespace Lindenmayer.Json

/-- A value that comes back, or the refusal of a null in it. -/
def kept {α : Type} (b : Bool) (x : α) : Except ReadError α :=
  if b then .ok x else .error (.fault (.invalidType .null "f32"))

section
variable {α β : Type}

theorem map_eq_ok {ε : Type} {x : Except ε α} {f : α → β} {y : β} :
    x.map f = .ok y ↔ ∃ a, x = .ok a ∧ f a = y := by
  cases x <;> simp [Except.map]

theorem map_kept (b : Bool) (x : α) (f : α → β) : (kept b x).map f = kept b (f x) := by
  cases b <;> rfl

theorem bind_kept {a b : Bool} {x : α} {y : β} {f : α → Except ReadError β}
    (hf : f x = kept b y) : (kept a x).bind f = kept (a && b) y := by
  cases a with
  | false => rfl
  | true => exact hf

end

/-! ### Single numbers and lists of them -/

theorem single_eq_null_iff {x : Float32} : single x = .null ↔ x.isFinite = false := by
  show single x = .null ↔ x.toModel.unpack.isFinite = false
  unfold single Numeral.ofSingle?
  cases x.toModel.unpack with
  | infinity | notANumber => exact iff_of_true rfl rfl
  | zero | finite => exact iff_of_false nofun nofun

theorem intact_number (x : Float32) : (single x).Intact := by
  cases hx : x.isFinite with
  | true => exact intact_single hx
  | false => exact single_eq_null_iff.2 hx ▸ .null

theorem toSingle_number (x : Float32) : (single x).toSingle = kept x.isFinite x := by
  cases hx : x.isFinite with
  | true => exact toSingle_single hx
  | false =>
    rw [single_eq_null_iff.2 hx]
    rfl

theorem toList_numbers (xs : List Float32) :
    toList toSingle (.array (xs.map single)) = kept (xs.all Float32.isFinite) xs := by
  have hmap : (xs.map single).mapM toSingle = kept (xs.all Float32.isFinite) xs := by
    induction xs with
    | nil => rfl
    | cons x xs ih =>
      rw [List.map_cons,List.mapM_cons,toSingle_number]
      exact bind_kept ((congrArg (Except.bind · _) ih).trans (map_kept _ xs (x::·)))
  rw [array,toList,hmap]
  exact (bind_kept rfl).trans (congrArg (kept · xs) (Bool.and_true _))

theorem exists_of_mem_toList {α : Type} {read : Reader α} {v : Json} {xs : List α}
    (h : toList read v = .ok xs) {x : α} (hx : x ∈ xs) : ∃ v, read v = .ok x := by
  cases v with
  | list vs end? =>
    obtain ⟨ys,hmap,hrest⟩ := bind_eq_ok.1 h
    obtain ⟨_,-,hys⟩ := bind_eq_ok.1 hrest
    obtain rfl := Except.ok.inj hys
    clear h hrest hys
    induction vs generalizing ys with
    | nil =>
      obtain rfl := Except.ok.inj hmap
      cases hx
    | cons v vs ih =>
      rw [List.mapM_cons] at hmap
      obtain ⟨y,hy,hmap⟩ := bind_eq_ok.1 hmap
      obtain ⟨ys,hys,hmap⟩ := bind_eq_ok.1 hmap
      obtain rfl := Except.ok.inj hmap
      rcases List.mem_cons.1 hx with rfl | hx
      · exact ⟨v,hy⟩
      · exact ih ys hys hx
  | _ => exact absurd h (refuse_ne_ok _ _ _)

/-! ### Records -/

theorem Record.holds_of_read {σ : Type} {r : Record σ} {P : σ → Prop} (hinitial : P r.initial)
    (hset : ∀ f ∈ r.fields, ∀ {v s s'}, f.set v s = .ok s' → P s → P s') {v : Json} {s : σ}
    (h : r.read v = .ok s) : P s := by
  have hmembers {us : List (Option Word × Json)} {seen seen' : List String} {s s' : σ}
      (hs : P s) (h : r.readMembers seen s us = .ok (seen',s')) : P s' := by
    induction us generalizing seen s with
    | nil =>
      obtain ⟨-,rfl⟩ := Prod.mk.inj (Except.ok.inj h)
      exact hs
    | cons u us ih =>
      obtain ⟨⟨_,s₁⟩,hmember,hrest⟩ := bind_eq_ok.1 h
      rcases readMember_cases hmember with ⟨-,rfl⟩ | ⟨f,hf,-,-,hf'⟩
      · exact ih hs hrest
      · exact ih (hset f hf hf' hs) hrest
  have hitems {end? : Option Break} {fields : List (Field σ)} (hsub : fields ⊆ r.fields)
      {vs : List Json} {n : Nat} {s s' : σ} (hs : P s)
      (h : r.readItems end? n s fields vs = .ok s') : P s' := by
    induction vs generalizing fields n s with
    | nil =>
      obtain rfl := end?_of_readItems h
      exact (readItems_nil_iff.1 h).2 ▸ hs
    | cons v vs ih =>
      cases fields with
      | nil => simp [readItems,malformed] at h
      | cons f fields =>
        obtain ⟨s₁,hf,hrest⟩ := bind_eq_ok.1 h
        exact ih (List.subset_of_cons_subset hsub) (hset f (hsub (.head _)) hf hs) hrest
  cases v with
  | object us end? =>
    obtain ⟨_,-,hrest⟩ := bind_eq_ok.1 h
    obtain ⟨_,hend,-⟩ := bind_eq_ok.1 hrest
    obtain rfl := ended_eq_ok hend
    obtain ⟨_,hread,-⟩ := read_object_ok h
    exact hmembers hinitial hread
  | list vs end? => exact hitems (.refl _) hinitial h
  | _ => exact absurd h (refuse_ne_ok _ _ _)

namespace Record.Follows
variable {σ ι : Type} {r : Record σ} {S : Schema σ ι} (h : r.Follows S)
include h

/-- A record is written as settings, each of which comes back or contains a null. -/
theorem read_settings {write : ι → Json} {finite : ι → Bool}
    (hwrite : ∀ i, ∃ f ∈ r.fields, f.name = S.name i ∧
      ∀ s, f.set (write i) s = kept (finite i) (S.put i s))
    {is : List ι} (hnodup : (is.map S.name).Nodup) (hrequired : S.required ⊆ is.map S.name) :
    r.read (.record (is.map fun i => (S.name i,write i))) =
      kept (is.all finite) (S.replaced is) := by
  have hmembers (seen : List String) (s : σ) (hseen : (is.map S.name ++ seen).Nodup) :
      r.readMembers seen s (is.map fun i => (some (S.name i).toList,write i)) =
        kept (is.all finite)
          ((is.map S.name).reverse ++ seen,is.foldl (fun s i => S.put i s) s) := by
    clear hnodup hrequired
    induction is generalizing seen s with
    | nil => rfl
    | cons i is ih =>
      obtain ⟨f,hf,hname,hset⟩ := hwrite i
      have hmiddle : (is.map S.name ++ S.name i::seen).Nodup := List.nodup_middle.2 hseen
      have hnew : f.name ∉ seen := fun hmem =>
        (List.nodup_cons.1 hseen).1 (List.mem_append_right _ (hname ▸ hmem))
      rw [List.map_cons,← hname,readMembers_field (h.find?_of_mem hf) hnew,hset,hname]
      refine bind_kept ((ih _ _ hmiddle).trans ?_)
      simp
  have hmissing : r.missing? ((is.map S.name).reverse ++ []) = none := by
    rw [h.missing?_eq_none_iff]
    simpa using hrequired
  rw [read_record,List.map_map]
  refine (congrArg (Except.bind · _) (hmembers [] r.initial (by simpa using hnodup))).trans ?_
  rw [bind_kept (b := true) (y := S.replaced is),Bool.and_true]
  rw [hmissing,h.initial]
  rfl

end Record.Follows
end Lindenmayer.Json
