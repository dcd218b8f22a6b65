import Lindenmayer.Json.Token

/-! Reading a document token by token. What has been read is kept as the lists and objects still
open, the innermost first, with their parts in reverse. -/

namespace Lindenmayer.Json

/-- A whole text: the value in it, and whether anything follows that value. -/
structure Document where
  root : Json
  followed : Bool

/-- A list or an object that waits for a value. -/
inductive Opened
  | list (before : List Json)
  | member (before : List (Option Word × Json)) (key : Option Word)

/-- What may come next. -/
inductive Progress
  | value (within : List Opened)
  /-- A value, or the end of the list just opened. -/
  | firstItem (within : List Opened)
  /-- A key, or the end of the object just opened. -/
  | firstKey (within : List Opened)
  | key (before : List (Option Word × Json)) (within : List Opened)
  | colon (before : List (Option Word × Json)) (key : Option Word) (within : List Opened)
  /-- A comma or an end, after a value. -/
  | more (v : Json) (within : List Opened)
  | done (d : Document)

namespace Opened

/-- The list or object with its last value, closed or broken off. -/
def close (o : Opened) (v : Json) (end? : Option Break) : Json :=
  match o with
  | .list before => .list (v::before).reverse end?
  | .member before key => .object ((key,v)::before).reverse end?

end Opened

namespace Progress

def unwind (b : Break) (v : Json) : List Opened → Json
  | [] => v
  | o::rest => unwind b (o.close v (some b)) rest

def brokenOff (b : Break) (v : Json) (within : List Opened) : Progress :=
  .done ⟨unwind b v within,false⟩

/-- Stops where the next thing is missing. -/
def stop (b : Break) : Progress → Progress
  | .value within => brokenOff b (.broken b) within
  | .firstItem within => brokenOff b (.list [] (some b)) within
  | .firstKey within => brokenOff b (.object [] (some b)) within
  | .key before within => brokenOff b (.object before.reverse (some b)) within
  | .colon before k within =>
    brokenOff b (.object ((k,.broken b)::before).reverse (some b)) within
  | .more v [] => .done ⟨v,true⟩
  | .more v within => brokenOff b v within
  | .done d => .done d

def malformed (p : Progress) : Progress := p.stop (.of .malformed)

def beginValue (within : List Opened) : Token → Progress
  | .plain v => .more v within
  | .string w => .more (.string w) within
  | .openList => .firstItem within
  | .openObject => .firstKey within
  | .broken b | .brokenString b => (value within).stop b
  | _ => (value within).malformed

def beginKey (p : Progress) (before : List (Option Word × Json)) (within : List Opened) :
    Token → Progress
  | .string k => .colon before k within
  | .brokenString b => p.stop b
  | _ => p.malformed

def step (p : Progress) (t : Token) : Progress :=
  match p with
  | .value within => beginValue within t
  | .firstItem within =>
    match t with
    | .closeList => .more (.list [] none) within
    | .broken b | .brokenString b => p.stop b
    | t => beginValue (.list []::within) t
  | .firstKey within =>
    match t with
    | .closeObject => .more (.object [] none) within
    | t => beginKey p [] within t
  | .key before within => beginKey p before within t
  | .colon before k within =>
    match t with
    | .colon => .value (.member before k::within)
    | _ => p.malformed
  | .more _ [] => p.malformed
  | .more v (o::rest) =>
    match o,t with
    | .list before,.comma => .value (.list (v::before)::rest)
    | .list _,.closeList => .more (o.close v none) rest
    | .member before k,.comma => .key ((k,v)::before) rest
    | .member _ _,.closeObject => .more (o.close v none) rest
    | _,_ => p.malformed
  | .done d => .done d

def finish (p : Progress) : Document :=
  match p with
  | .more v [] => ⟨v,false⟩
  | p =>
    match p.stop (.of .truncated) with
    | .done d => d
    | _ => ⟨.broken (.of .truncated),false⟩

def follow (p : Progress) (s : List Char) : Document :=
  match _ : Token.next? s with
  | none => p.finish
  | some (t,r) => (p.step t).follow r
termination_by s.length
decreasing_by exact Token.length_next? ‹_›

end Progress

def Document.ofText (s : List Char) : Document := (Progress.value []).follow s

end Lindenmayer.Json
