import Lindenmayer.Json.Basic

/-! Tokens: the smallest parts of a document. Blanks between them mean nothing. -/

namespace Lindenmayer.Json

inductive Token
  | openList
  | closeList
  | openObject
  | closeObject
  | comma
  | colon
  | string (text : Option Word)
  /-- A whole value that is no string, no list and no object. -/
  | plain (v : Json)
  /-- A string that breaks off. -/
  | brokenString (b : Break)
  | broken (b : Break)

namespace Token

def isBlank (c : Char) : Bool := c == ' ' || c == '\t' || c == '\n' || c == '\r'

/-- The rest of a word that has begun; a text may end within it. -/
def expect : List Char → List Char → Except Defect (List Char)
  | [],s => .ok s
  | _::_,[] => .error .truncated
  | c::w,d::s => if c = d then expect w s else .error .malformed

theorem length_expect_le {w s r : List Char} (h : expect w s = .ok r) : r.length ≤ s.length := by
  fun_induction expect w s <;> simp_all
  omega

def ofWord (v : Json) (rest : Except Defect (List Char)) : Token × List Char :=
  match rest with
  | .ok r => (.plain v,r)
  | .error d => (.broken (.of d),[])

def ofString (s : List Char) : Token × List Char :=
  match Quoted.scan [] s with
  | (ps,.ok r) => (.string (Quoted.text? ps),r)
  | (ps,.error d) => (.brokenString (Quoted.breakAfter ps d),[])

def ofNumeral (s : List Char) : Token × List Char :=
  match Numeral.scan s with
  | .ok (n,r) => (.plain (.number n),r)
  | .error b => (.broken b,[])

/-- The token that starts with `c`, and what follows it; nothing follows a broken one. -/
def scan (c : Char) (r : List Char) : Token × List Char :=
  match c with
  | '[' => (.openList,r)
  | ']' => (.closeList,r)
  | '{' => (.openObject,r)
  | '}' => (.closeObject,r)
  | ',' => (.comma,r)
  | ':' => (.colon,r)
  | '"' => ofString r
  | 'n' => ofWord .null (expect ['u','l','l'] r)
  | 't' => ofWord (.bool true) (expect ['r','u','e'] r)
  | 'f' => ofWord (.bool false) (expect ['a','l','s','e'] r)
  | c => if c = '-' ∨ isDigit c then ofNumeral (c::r) else (.broken (.of .malformed),[])

theorem length_ofWord_le (v : Json) {w s : List Char} :
    (ofWord v (expect w s)).2.length ≤ s.length := by
  cases h : expect w s with
  | error => simp [ofWord]
  | ok r => simpa [ofWord] using length_expect_le h

theorem length_ofString_le (s : List Char) : (ofString s).2.length ≤ s.length := by
  unfold ofString
  split
  · rename_i h; exact Nat.le_of_lt (Quoted.length_scan _ h)
  · simp

theorem length_ofNumeral_cons_le (c : Char) (s : List Char) :
    (ofNumeral (c::s)).2.length ≤ s.length := by
  unfold ofNumeral
  split
  · rename_i h; exact Nat.le_of_lt_succ (Numeral.length_scan h)
  · simp

theorem length_scan_le (c : Char) (r : List Char) : (scan c r).2.length ≤ r.length := by
  unfold scan
  split <;> try simp
  · exact length_ofString_le r
  · exact length_ofWord_le _
  · exact length_ofWord_le _
  · exact length_ofWord_le _
  · split
    · exact length_ofNumeral_cons_le _ r
    · simp

/-- The next token, if there is anything but blanks. -/
def next? (s : List Char) : Option (Token × List Char) :=
  match s.dropWhile isBlank with
  | [] => none
  | c::r => some (scan c r)

theorem length_next? {s : List Char} {t : Token} {r : List Char} (h : next? s = some (t,r)) :
    r.length < s.length := by
  unfold next? at h
  split at h
  · simp at h
  · rename_i c r' hs
    have h₁ := (List.dropWhile_suffix (p := isBlank) (l := s)).length_le
    have h₂ := length_scan_le c r'
    rw [hs] at h₁
    simp at h h₁
    rw [h] at h₂
    simp at h₂
    omega

end Token
end Lindenmayer.Json
