import Lindenmayer.Json.Numeral

/-! Strings in quotes: characters that stand for themselves, and escapes. An escape by number gives
sixteen bits, so a character beyond them takes two escapes, a surrogate pair. -/

namespace Lindenmayer.Json

inductive Piece
  | char (c : Char)
  | unit (u : Nat)
deriving DecidableEq

namespace Quoted

/-- The escapes that are not by number. -/
def named? : Char → Option Char
  | '"' => some '"'
  | '\\' => some '\\'
  | '/' => some '/'
  | 'b' => some '\x08'
  | 'f' => some '\x0c'
  | 'n' => some '\n'
  | 'r' => some '\r'
  | 't' => some '\t'
  | _ => none

def hexValue? (c : Char) : Option Nat :=
  if '0' ≤ c ∧ c ≤ '9' then some (c.toNat - '0'.toNat)
  else if 'a' ≤ c ∧ c ≤ 'f' then some (c.toNat - 'a'.toNat+10)
  else if 'A' ≤ c ∧ c ≤ 'F' then some (c.toNat - 'A'.toNat+10)
  else none

def hexQuad? (a b c d : Char) : Option Nat := do
  return 4096*(← hexValue? a)+256*(← hexValue? b)+16*(← hexValue? c)+(← hexValue? d)

/-- The verdict on an escape by number that does not have its four digits. What is left of the text
is too short for them if it has less than four bytes. -/
def shortEscape (rest : List Char) : Defect :=
  if Word.byteSize rest < 4 then .truncated else .malformed

/-- The pieces up to the closing quote, and what follows it. -/
def scan (done : List Piece) : List Char → List Piece × Except Defect (List Char)
  | [] => (done.reverse,.error .truncated)
  | '"'::r => (done.reverse,.ok r)
  | '\\'::[] => (done.reverse,.error .truncated)
  | '\\' :: 'u' :: a :: b :: c :: d :: r =>
    match hexQuad? a b c d with
    | some u => scan (.unit u::done) r
    | none => (done.reverse,.error .malformed)
  | '\\' :: 'u' :: r => (done.reverse,.error (shortEscape r))
  | '\\'::c::r =>
    match named? c with
    | some e => scan (.char e::done) r
    | none => (done.reverse,.error .malformed)
  | c::r => if c.toNat < 0x20 then (done.reverse,.error .malformed) else scan (.char c::done) r

theorem length_scan (done : List Piece) {s : List Char} {ps : List Piece} {r : List Char}
    (h : scan done s = (ps,.ok r)) : r.length < s.length := by
  fun_induction scan done s with
  | case1 | case3 | case5 | case6 | case8 | case9 => simp_all
  | case2 => simp_all
  | case4 _ _ _ _ _ _ _ _ ih => have := ih h; simp; omega
  | case7 _ _ _ _ _ _ _ ih => have := ih h; simp; omega
  | case10 _ _ _ _ _ _ _ _ _ ih => have := ih h; simp; omega

def isHigh (u : Nat) : Bool := 0xd800 ≤ u && u < 0xdc00
def isLow (u : Nat) : Bool := 0xdc00 ≤ u && u < 0xe000
def joined (high low : Nat) : Char := Char.ofNat (0x10000+(high-0xd800)*0x400+(low-0xdc00))

/-- The text of the pieces. The mark tells that the last of them still waits for its other half. -/
def assemble (done : Word) : List Piece → Option (Word × Bool)
  | [] => some (done.reverse,false)
  | .char c::r => assemble (c::done) r
  | .unit u::r =>
    if isLow u then none
    else if isHigh u then
      match r with
      | [] => some (done.reverse,true)
      | .unit v::r => if isLow v then assemble (joined u v::done) r else none
      | .char _::_ => none
    else assemble (Char.ofNat u::done) r

def text? (ps : List Piece) : Option Word :=
  match assemble [] ps with
  | some (w,false) => some w
  | _ => none

/-- The verdict on a string that breaks off after some pieces. -/
def breakAfter (ps : List Piece) (d : Defect) : Break :=
  ⟨if (assemble [] ps).isSome then d else .malformed,d⟩

def hexDigit (n : Nat) : Char := Nat.digitChar n

/-- Only what must be escaped is. -/
def escaped (c : Char) : List Char :=
  match c with
  | '"' => ['\\','"']
  | '\\' => ['\\','\\']
  | '\x08' => ['\\','b']
  | '\x0c' => ['\\','f']
  | '\n' => ['\\','n']
  | '\r' => ['\\','r']
  | '\t' => ['\\','t']
  | c =>
    if c.toNat < 0x20 then ['\\','u','0','0',hexDigit (c.toNat/16),hexDigit (c.toNat%16)] else [c]

def quote (w : Word) : List Char := '"'::w.flatMap escaped ++ ['"']

end Quoted
end Lindenmayer.Json
