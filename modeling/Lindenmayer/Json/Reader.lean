import Lindenmayer.Json.Document
import Lindenmayer.Text.Escaped

/-! Readers: what a tree stands for where a value of some kind is wanted. A reader meets the parts
of a tree in the order of the text, and the first thing wrong is its answer. -/

namespace Lindenmayer.Json

/-- What stands where something else is wanted. -/
inductive Found
  | null
  | bool (b : Bool)
  | integer (n : Int)
  | floating (x : Float)
  | string (w : Word)
  | list
  | object
deriving DecidableEq

/-- How a document can be well written and yet not be what is wanted. -/
inductive Fault
  | missingField (name : String)
  | duplicateField (name : String)
  | invalidType (found : Found) (wanted : String)
  | invalidValue (found : Found) (wanted : String)
  | invalidLength (n : Nat) (wanted : String)
deriving DecidableEq

inductive ReadError
  | text (d : Defect)
  | fault (f : Fault)
deriving DecidableEq

def floatText (x : Float) : String :=
  match Numeral.ofDouble? x with
  | some n => String.ofList n.text
  | none => "null"

def Found.describe : Found → String
  | .null => "null"
  | .bool b => s!"boolean `{b}`"
  | .integer n => s!"integer `{n}`"
  | .floating x => s!"floating point `{floatText x}`"
  | .string w => s!"string {Text.quoted w}"
  | .list => "sequence"
  | .object => "map"

def Fault.message : Fault → String
  | .missingField name => s!"missing field `{name}`"
  | .duplicateField name => s!"duplicate field `{name}`"
  | .invalidType found wanted => s!"invalid type: {found.describe}, expected {wanted}"
  | .invalidValue found wanted => s!"invalid value: {found.describe}, expected {wanted}"
  | .invalidLength n wanted => s!"invalid length {n}, expected {wanted}"

abbrev Reader (α : Type) := Json → Except ReadError α

def fail {α : Type} (b : Break) : Except ReadError α := .error (.text b.reading)
def malformed {α : Type} : Except ReadError α := .error (.text .malformed)

/-- The verdict at the end of a list or an object. -/
def ended : Option Break → Except ReadError Unit
  | none => .ok ()
  | some b => fail b

def valueOf (n : Numeral) : Except ReadError Number :=
  match n.number? with
  | some v => .ok v
  | none => malformed

def Number.found : Number → Found
  | .integer n => .integer n
  | .floating x => .floating x

/-- What a tree is. A list or an object is known by how it begins. -/
def found : Reader Found
  | .null => .ok .null
  | .bool b => .ok (.bool b)
  | .number n => (valueOf n).map Number.found
  | .string (some w) => .ok (.string w)
  | .string none => malformed
  | .list _ _ => .ok .list
  | .object _ _ => .ok .object
  | .broken b => fail b

/-- For a reader that wants something else. -/
def refuse {α : Type} (wanted : String) (v : Json) : Except ReadError α := do
  throw (.fault (.invalidType (← v.found) wanted))

def toBool : Reader Bool
  | .bool b => .ok b
  | v => v.refuse "a boolean"

def toWord : Reader Word
  | .string (some w) => .ok w
  | v => v.refuse "a string"

/-- The symbol of a word that has no other. -/
def symbolOf : Word → Except ReadError Symbol
  | [c] => .ok c
  | w => .error (.fault (.invalidValue (.string w) "a character"))

def toSymbol : Reader Symbol
  | .string (some w) => symbolOf w
  | v => v.refuse "a character"

def toSingle : Reader Float32
  | .number n => (valueOf n).map Number.single
  | v => v.refuse "f32"

/-- An integer that is not negative and below a bound. -/
def toNatBelow (bound : Nat) (wanted : String) : Reader Nat
  | .number n => do
    match ← valueOf n with
    | .integer k =>
      if 0 ≤ k ∧ k < bound then return k.toNat
      else throw (.fault (.invalidValue (.integer k) wanted))
    | .floating x => throw (.fault (.invalidType (.floating x) wanted))
  | v => v.refuse wanted

def toList {α : Type} (item : Reader α) : Reader (List α)
  | .list vs end? => do
    let xs ← vs.mapM item
    ended end?
    return xs
  | v => v.refuse "a sequence"

/-- A value that is only stepped over: any document will do. -/
def skip : Reader Unit
  | .list _ (some b) => .error (.text b.skipping)
  | .object _ (some b) => .error (.text b.skipping)
  | .broken b => .error (.text b.skipping)
  | _ => .ok ()

/-- A key that is read. -/
def keyText : Option Word → Except ReadError Word
  | some w => .ok w
  | none => malformed

/-- Reads a whole text. Only blanks may follow the value. -/
def Reader.run {α : Type} (read : Reader α) (text : Word) : Except ReadError α := do
  let d := Document.ofText text
  let x ← read d.root
  if d.followed then malformed else return x

end Lindenmayer.Json
