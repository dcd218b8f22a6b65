import Lindenmayer.Json.Reader

/-! Records: values with named fields, read from an object in any order of its members, or from a
list in the order of the fields. Members with other names are stepped over. -/

namespace Lindenmayer.Json

/-- One field of a record: a reader that puts what it read into the record. -/
structure Field (σ : Type) where
  name : String
  required : Bool
  set : Json → σ → Except ReadError σ

namespace Field

def optional {σ α : Type} (name : String) (read : Reader α) (put : α → σ → σ) : Field σ :=
  ⟨name,false,fun v s => (read v).map (put · s)⟩
def mandatory {σ α : Type} (name : String) (read : Reader α) (put : α → σ → σ) : Field σ :=
  ⟨name,true,fun v s => (read v).map (put · s)⟩

end Field

/-- The fields in the order of a list, and the record before any of them is read. -/
structure Record (σ : Type) where
  name : String
  fields : List (Field σ)
  initial : σ

namespace Record
variable {σ : Type}

def find? (r : Record σ) (key : Word) : Option (Field σ) :=
  r.fields.find? fun f => f.name.toList == key

/-- A field may be seen once only, and this is known from its key. -/
def readMember (r : Record σ) (seen : List String) (s : σ) (m : Option Word × Json) :
    Except ReadError (List String × σ) := do
  let key ← keyText m.1
  match r.find? key with
  | none =>
    m.2.skip
    return (seen,s)
  | some f =>
    if f.name ∈ seen then throw (.fault (.duplicateField f.name))
    return (f.name::seen,← f.set m.2 s)

def readMembers (r : Record σ) (seen : List String) (s : σ) :
    List (Option Word × Json) → Except ReadError (List String × σ)
  | [] => .ok (seen,s)
  | m::rest => do
    let (seen,s) ← r.readMember seen s m
    readMembers r seen s rest

/-- The first field that had to be there and was not. -/
def missing? (r : Record σ) (seen : List String) : Option (Field σ) :=
  r.fields.find? fun f => f.required && !(f.name ∈ seen)

/-- The phrase for the list form. -/
def elements (r : Record σ) : String :=
  let n := r.fields.length
  let noun := if n = 1 then "element" else "elements"
  s!"{r.name} with {n} {noun}"

/-- `n` items have been read; those that are missing at the end of a list must not be required. -/
def readItems (r : Record σ) (end? : Option Break) (n : Nat) (s : σ) :
    List (Field σ) → List Json → Except ReadError σ
  | [],[] => do
    ended end?
    return s
  | [],_::_ => malformed
  | f::fields,v::rest => do
    readItems r end? (n+1) (← f.set v s) fields rest
  | f::fields,[] => do
    ended end?
    if (f::fields).any Field.required then throw (.fault (.invalidLength n r.elements))
    return s

def read (r : Record σ) : Reader σ
  | .object ms end? => do
    let (seen,s) ← r.readMembers [] r.initial ms
    ended end?
    match r.missing? seen with
    | some f => throw (.fault (.missingField f.name))
    | none => return s
  | .list vs end? => r.readItems end? 0 r.initial r.fields vs
  | v => v.refuse r.name

end Record
end Lindenmayer.Json
