import Std.Data.HashMap
import Lindenmayer.Word

/-! Tables of names: each name has a number, in the order in which the names came. Both the
numbers and the room for the names are limited. -/

namespace Lindenmayer

instance : Hashable Word := @instHashableList Char instHashableChar

structure NameTable where
  names : Array Word
  /-- The number of each name. -/
  index : Std.HashMap Word Nat
  /-- Bytes of all names. -/
  bytes : Nat
  capacity : Nat
  index_iff : ∀ (w : Word) (i : Nat), index[w]? = some i ↔ names[i]? = some w
  bytes_eq : bytes = Word.byteSize names.toList.flatten

namespace NameTable

/-- Why a table takes no more names. -/
inductive Refusal
  | numbers
  | room
deriving DecidableEq

def Refusal.message : Refusal → String
  | .numbers => "ID overflow"
  | .room => "Interner heap overflow"

def sizeLimit : Nat := 65535
def initialCapacity : Nat := 10*1024*1024

def empty (capacity : Nat) : NameTable where
  names := #[]
  index := ∅
  bytes := 0
  capacity := capacity
  index_iff := by simp
  bytes_eq := by simp

def size (t : NameTable) : Nat := t.names.size
def number? (t : NameTable) (w : Word) : Option Nat := t.index[w]?
def name? (t : NameTable) (i : Nat) : Option Word := t.names[i]?

theorem number?_eq_some_iff {t : NameTable} {w : Word} {i : Nat} :
    t.number? w = some i ↔ t.name? i = some w := t.index_iff w i

theorem index_insert_iff {names : Array Word} {index : Std.HashMap Word Nat}
    (h : ∀ (w : Word) (i : Nat), index[w]? = some i ↔ names[i]? = some w) {w : Word}
    (hw : index[w]? = none) (v : Word) (i : Nat) :
    (index.insert w names.size)[v]? = some i ↔ (names.push w)[i]? = some v := by
  have hne : names[i]? ≠ some w := fun hi => by simp [(h w i).2 hi] at hw
  rw [Std.HashMap.getElem?_insert,Array.getElem?_push]
  by_cases hv : w = v
  · subst hv
    by_cases hi : i = names.size
    · simp [hi]
    · simp [hi,hne,Ne.symm hi]
  · by_cases hi : i = names.size
    · subst hi
      simp [hv,h]
    · simp [hv,hi,h]

/-- Gives the next number to a new name. -/
def add (t : NameTable) (w : Word) (h : t.number? w = none) : NameTable :=
  let n := t.names.size
  ⟨t.names.push w,t.index.insert w n,t.bytes+Word.byteSize w,t.capacity,
    index_insert_iff t.index_iff h,by simp [t.bytes_eq]⟩

@[simp] theorem names_add (t : NameTable) (w : Word) (h : t.number? w = none) :
    (t.add w h).names = t.names.push w := rfl
@[simp] theorem capacity_add (t : NameTable) (w : Word) (h : t.number? w = none) :
    (t.add w h).capacity = t.capacity := rfl
@[simp] theorem size_add (t : NameTable) (w : Word) (h : t.number? w = none) :
    (t.add w h).size = t.size+1 := by simp [size]

/-- The number of a name, which is added if it is not there yet. Known names are never refused. -/
def intern (t : NameTable) (w : Word) : NameTable × Except Refusal Nat :=
  match h : t.number? w with
  | some i => (t,.ok i)
  | none =>
    if sizeLimit ≤ t.size then (t,.error .numbers)
    else if t.capacity < t.bytes+Word.byteSize w then (t,.error .room)
    else
      let n := t.size
      (t.add w h,.ok n)

end NameTable
end Lindenmayer
