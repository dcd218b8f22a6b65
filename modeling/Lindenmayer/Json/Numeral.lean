import Lindenmayer.Scalar.Shortest
import Lindenmayer.Word

/-! Numerals: how a number is written in a document. -/

namespace Lindenmayer.Json

/-- How a text fails to be a document: it ends too early, or what stands there must not. -/
inductive Defect
  | truncated
  | malformed
deriving DecidableEq

/-- The point where a text stops being a document. A numeral that the end of the text cuts off is
incomplete for whoever wants its value, and a wrong numeral for whoever only steps over it. A
string that lacks half of a surrogate pair is wrong only for whoever wants its text. -/
structure Break where
  reading : Defect
  skipping : Defect
deriving DecidableEq

def Break.of (d : Defect) : Break := ⟨d,d⟩

def isDigit (c : Char) : Bool := '0' ≤ c && c ≤ '9'
def digitValue (c : Char) : Nat := c.toNat - '0'.toNat

def digits (s : List Char) : List Char := s.takeWhile isDigit
def afterDigits (s : List Char) : List Char := s.dropWhile isDigit

theorem digits_append_afterDigits (s : List Char) : digits s ++ afterDigits s = s :=
  List.takeWhile_append_dropWhile
theorem length_afterDigits_le (s : List Char) : (afterDigits s).length ≤ s.length :=
  (List.dropWhile_suffix _).length_le

def value (ds : List Char) : Nat := ds.foldl (fun n c => 10*n+digitValue c) 0

/-- The digits of a number, none in front that is not needed. -/
def decimal (n : Nat) : List Char := Nat.toDigits 10 n

/-- Without fraction and exponent a numeral stands for an integer. -/
structure Numeral where
  negative : Bool
  whole : List Char
  fraction : List Char
  exponent : Option Int
deriving DecidableEq

namespace Numeral

def ofInt (n : Int) : Numeral := ⟨n < 0,decimal n.natAbs,[],none⟩

/-- The verdict where digits must follow but `s` does not start with one. -/
def missingDigits (s : List Char) : Break :=
  if s.isEmpty then ⟨.truncated,.malformed⟩ else .of .malformed

def scanWhole (s : List Char) : Except Break (List Char × List Char) :=
  match digits s with
  | [] => .error (missingDigits s)
  | ['0'] => .ok (['0'],afterDigits s)
  | '0'::_ => .error (.of .malformed)
  | ds => .ok (ds,afterDigits s)

def scanFraction (s : List Char) : Except Break (List Char × List Char) :=
  match s with
  | '.'::r =>
    match digits r with
    | [] => .error (missingDigits r)
    | ds => .ok (ds,afterDigits r)
  | _ => .ok ([],s)

def scanSign (s : List Char) : Bool × List Char :=
  match s with
  | '+'::r => (false,r)
  | '-'::r => (true,r)
  | _ => (false,s)

def scanExponent (s : List Char) : Except Break (Option Int × List Char) :=
  match s with
  | c::r =>
    if c = 'e' ∨ c = 'E' then
      let t := (scanSign r).2
      match digits t with
      | [] => .error (missingDigits t)
      | ds => .ok (some (if (scanSign r).1 then -(value ds : Int) else value ds),afterDigits t)
    else .ok (none,s)
  | [] => .ok (none,s)

def scanMinus (s : List Char) : Bool × List Char :=
  match s with
  | '-'::r => (true,r)
  | _ => (false,s)

/-- The numeral at the front of a text, and what follows it. -/
def scan (s : List Char) : Except Break (Numeral × List Char) :=
  match scanWhole (scanMinus s).2 with
  | .error b => .error b
  | .ok (whole,r₁) =>
  match scanFraction r₁ with
  | .error b => .error b
  | .ok (fraction,r₂) =>
  match scanExponent r₂ with
  | .error b => .error b
  | .ok (exponent,r₃) => .ok (⟨(scanMinus s).1,whole,fraction,exponent⟩,r₃)

def textExponent (e : Int) : List Char :=
  'e'::(if e < 0 then '-' else '+')::decimal e.natAbs

def text (n : Numeral) : List Char :=
  (if n.negative then ['-'] else []) ++ n.whole ++
  (if n.fraction.isEmpty then [] else '.'::n.fraction) ++
  (match n.exponent with
   | none => []
   | some e => textExponent e)

theorem length_scanMinus_le (s : List Char) : (scanMinus s).2.length ≤ s.length := by
  unfold scanMinus; split <;> simp

theorem length_scanWhole {s : List Char} {ds r : List Char} (h : scanWhole s = .ok (ds,r)) :
    r.length < s.length := by
  have hs := congrArg List.length (digits_append_afterDigits s)
  unfold scanWhole at h
  rw [List.length_append] at hs
  split at h
  · simp at h
  · simp_all
    omega
  · simp at h
  · rename_i hd _ _
    have := List.length_pos_iff.2 hd
    simp_all
    omega

theorem length_scanFraction_le {s : List Char} {ds r : List Char}
    (h : scanFraction s = .ok (ds,r)) : r.length ≤ s.length := by
  unfold scanFraction at h
  split at h
  · rename_i t
    have := length_afterDigits_le t
    split at h <;> simp_all
    omega
  · simp_all

theorem length_scanSign_le (s : List Char) : (scanSign s).2.length ≤ s.length := by
  unfold scanSign; split <;> simp

theorem length_scanExponent_le {s : List Char} {e : Option Int} {r : List Char}
    (h : scanExponent s = .ok (e,r)) : r.length ≤ s.length := by
  unfold scanExponent at h
  split at h
  · rename_i c t
    split at h
    · have h₁ := length_scanSign_le t
      have h₂ := length_afterDigits_le (scanSign t).2
      simp only at h
      split at h
      · simp at h
      · simp only [Except.ok.injEq,Prod.mk.injEq] at h
        simp [← h.2]
        omega
    · simp_all
  · simp_all

theorem length_scan {s : List Char} {n : Numeral} {r : List Char} (h : scan s = .ok (n,r)) :
    r.length < s.length := by
  have h₀ := length_scanMinus_le s
  unfold scan at h
  split at h
  · simp at h
  · rename_i hw
    split at h
    · simp at h
    · rename_i hf
      split at h
      · simp at h
      · rename_i he
        have h₁ := length_scanWhole hw
        have h₂ := length_scanFraction_le hf
        have h₃ := length_scanExponent_le he
        simp at h
        rw [← h.2]
        omega

end Numeral
end Lindenmayer.Json
