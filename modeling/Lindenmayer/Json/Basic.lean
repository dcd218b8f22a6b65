import Lindenmayer.Json.Number
import Lindenmayer.Json.Quoted

/-! Documents as trees. A text that stops being a document stands for the tree of what came before,
broken off at that point; a list or an object around the point is marked by it too. -/

namespace Lindenmayer

inductive Json
  | null
  | bool (b : Bool)
  | number (n : Json.Numeral)
  /-- Without a text if a surrogate in it lacks its other half. -/
  | string (text : Option Word)
  | list (items : List Json) (end? : Option Json.Break)
  | object (members : List (Option Word × Json)) (end? : Option Json.Break)
  | broken (b : Json.Break)

namespace Json

def text (w : Word) : Json := .string (some w)
def array (vs : List Json) : Json := .list vs none
def record (ms : List (String × Json)) : Json :=
  .object (ms.map fun m => (some m.1.toList,m.2)) none

/-- The number as it is written, or null if it is no finite number. -/
def single (x : Float32) : Json :=
  match Numeral.ofSingle? x with
  | some n => .number n
  | none => .null

def integer (n : Int) : Json := .number (.ofInt n)

def separated (sep : List Char) : List (List Char) → List Char
  | [] => []
  | [s] => s
  | s::r => s ++ sep ++ separated sep r

mutual
/-- The text of a whole tree, without blanks. -/
def render : Json → List Char
  | .null => ['n','u','l','l']
  | .bool true => ['t','r','u','e']
  | .bool false => ['f','a','l','s','e']
  | .number n => n.text
  | .string w => Quoted.quote (w.getD [])
  | .list vs _ => '['::separated [','] (renderItems vs) ++ [']']
  | .object ms _ => '{'::separated [','] (renderMembers ms) ++ ['}']
  | .broken _ => []

def renderItems : List Json → List (List Char)
  | [] => []
  | v::r => render v::renderItems r

def renderMembers : List (Option Word × Json) → List (List Char)
  | [] => []
  | (k,v)::r => (Quoted.quote (k.getD []) ++ ':'::render v)::renderMembers r
end

@[simp] theorem renderItems_eq (vs : List Json) : renderItems vs = vs.map render := by
  induction vs <;> simp_all [renderItems]
@[simp] theorem renderMembers_eq (ms : List (Option Word × Json)) :
    renderMembers ms = ms.map fun m => Quoted.quote (m.1.getD []) ++ ':'::render m.2 := by
  induction ms <;> simp_all [renderMembers]

end Json
end Lindenmayer
