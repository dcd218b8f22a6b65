import Lindenmayer.Proofs.Json.Rendering
import Lindenmayer.Json.Record

/-! Readers undo what writes the trees they read: integers, lists and the members of records. -/

namespace Lindenmayer.Json

theorem bind_eq_ok {ε α β : Type} {x : Except ε α} {f : α → Except ε β} {b : β} :
    x >>= f = .ok b ↔ ∃ a, x = .ok a ∧ f a = .ok b := by
  cases x <;> simp [bind,Except.bind]

theorem Intact.skip {v : Json} (hv : v.Intact) : v.skip = .ok () := by
  cases hv <;> rfl

theorem toList_array {α : Type} {read : Reader α} {write : α → Json} {xs : List α}
    (h : ∀ x ∈ xs, read (write x) = .ok x) : toList read (.array (xs.map write)) = .ok xs := by
  have hmap : (xs.map write).mapM read = .ok xs := by
    induction xs with
    | nil => rfl
    | cons x xs ih =>
      have hx := h x (.head _)
      have hxs := ih fun y hy => h y (.tail _ hy)
      rw [List.map_cons,List.mapM_cons,hx,hxs]
      rfl
  rw [array,toList,hmap]
  rfl

theorem toNatBelow_integer {n bound : Nat} (hn : n < UInt64.size) (hb : n < bound)
    (wanted : String) :
    toNatBelow bound wanted (.integer n) = .ok n := by
  simp [integer,toNatBelow,valueOf,Numeral.number?_ofInt hn,bind,Except.bind,hb,pure,Except.pure]

theorem eq_of_toNatBelow_integer {n bound k : Nat} {wanted : String}
    (h : toNatBelow bound wanted (.integer n) = .ok k) : k = n := by
  rw [integer,toNatBelow,valueOf] at h
  cases hv : (Numeral.ofInt n).number? with
  | none => simp [hv,malformed,bind,Except.bind] at h
  | some v =>
    cases v with
    | floating x => simp [hv,bind,Except.bind,throw,throwThe,MonadExceptOf.throw] at h
    | integer i =>
      obtain rfl := Numeral.eq_of_number?_ofInt hv
      simp only [hv,bind,Except.bind] at h
      split at h
      · simpa [pure,Except.pure,eq_comm] using h
      · simp [throw,throwThe,MonadExceptOf.throw] at h

theorem Reader.run_map {α β : Type} (read : Reader α) (f : α → β) (t : Word) :
    Reader.run (fun v => (read v).map f) t = (Reader.run read t).map f := by
  cases h : read (Document.ofText t).root with
  | error => simp [Reader.run,h,bind,Except.bind,Except.map]
  | ok x =>
    by_cases hf : (Document.ofText t).followed = true <;>
      simp [Reader.run,h,hf,malformed,bind,Except.bind,Except.map,pure,Except.pure]

namespace Record
variable {σ : Type} {r : Record σ} {seen : List String} {s : σ} {v : Json}
  {ms : List (Option Word × Json)}

theorem find?_toList (r : Record σ) (name : String) :
    r.find? name.toList = r.fields.find? fun f => f.name == name := by
  have hname : ∀ f : Field σ, (f.name.toList == name.toList) = (f.name == name) := by
    intro f
    rw [Bool.eq_iff_iff,beq_iff_eq,beq_iff_eq,String.toList_inj]
  rw [find?,funext hname]

theorem readMembers_field {name : String} {f : Field σ}
    (hf : (r.fields.find? fun f => f.name == name) = some f) (hseen : f.name ∉ seen) :
    r.readMembers seen s ((some name.toList,v)::ms) =
      (f.set v s).bind fun s => r.readMembers (f.name::seen) s ms := by
  have hfind : r.find? name.toList = some f := (r.find?_toList name).trans hf
  rw [readMembers,readMember]
  cases hset : f.set v s <;>
    simp [keyText,hfind,hseen,hset,bind,Except.bind,pure,Except.pure]

theorem readMembers_field_ok {name : String} {f : Field σ} {s' : σ}
    (hf : (r.fields.find? fun f => f.name == name) = some f) (hseen : f.name ∉ seen)
    (hset : f.set v s = .ok s') :
    r.readMembers seen s ((some name.toList,v)::ms) = r.readMembers (f.name::seen) s' ms := by
  rw [readMembers_field hf hseen,hset]
  rfl

theorem readMembers_unknown {key : Word} (hf : r.find? key = none) (hv : v.skip = .ok ()) :
    r.readMembers seen s ((some key,v)::ms) = r.readMembers seen s ms := by
  simp [readMembers,readMember,keyText,hf,hv,bind,Except.bind,pure,Except.pure]

theorem readMembers_other {name : String}
    (hf : (r.fields.find? fun f => f.name == name) = none) (hv : v.skip = .ok ()) :
    r.readMembers seen s ((some name.toList,v)::ms) = r.readMembers seen s ms :=
  readMembers_unknown ((r.find?_toList name).trans hf) hv

theorem read_record (ms : List (String × Json)) :
    r.read (.record ms) =
      (r.readMembers [] r.initial (ms.map fun m => (some m.1.toList,m.2))).bind fun p =>
        match r.missing? p.1 with
        | some f => .error (.fault (.missingField f.name))
        | none => .ok p.2 := by
  rw [record,read]
  cases r.readMembers [] r.initial (ms.map fun m => (some m.1.toList,m.2)) with
  | error => rfl
  | ok p =>
    simp only [ended,bind,Except.bind]
    cases r.missing? p.1 <;> rfl

end Record
end Lindenmayer.Json
