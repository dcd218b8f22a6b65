/-! Words over the alphabet of all characters. -/

namespace Lindenmayer

abbrev Symbol := Char
abbrev Word := List Symbol

/-- Bytes that a word takes in UTF-8. -/
def Word.byteSize : Word → Nat
  | [] => 0
  | c::w => c.utf8Size+Word.byteSize w

@[simp] theorem Word.byteSize_nil : Word.byteSize [] = 0 := rfl
@[simp] theorem Word.byteSize_cons (c : Symbol) (w : Word) :
    Word.byteSize (c::w) = c.utf8Size+Word.byteSize w := rfl
@[simp] theorem Word.byteSize_append (v w : Word) :
    Word.byteSize (v++w) = Word.byteSize v+Word.byteSize w := by
  induction v with
  | nil => simp
  | cons c v ih => simp [ih,Nat.add_assoc]

end Lindenmayer
