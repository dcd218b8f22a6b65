import Lindenmayer.Json.Basic

/-! The syntax of documents as a grammar, from the characters of strings and numerals up to whole
values. -/

namespace Lindenmayer.Json

structure Digits (s : List Char) : Prop where
  ne_nil : s ≠ []
  all : ∀ c ∈ s, isDigit c = true

/-- An integer without zeros in front. -/
inductive WholeText : List Char → Prop
  | zero : WholeText ['0']
  | digits {s : List Char} (hs : Digits s) (hzero : s.head? ≠ some '0') : WholeText s

inductive FractionText : List Char → Prop
  | none : FractionText []
  | some {s : List Char} (hs : Digits s) : FractionText ('.'::s)

inductive ExponentText : List Char → Prop
  | none : ExponentText []
  | some {c : Char} {sign s : List Char} (hc : c = 'e' ∨ c = 'E')
    (hsign : sign ∈ [[],['+'],['-']]) (hs : Digits s) : ExponentText (c::(sign++s))

inductive NumeralText : List Char → Prop
  | intro {sign w f e : List Char} (hsign : sign ∈ [[],['-']]) (hw : WholeText w)
    (hf : FractionText f) (he : ExponentText e) : NumeralText (sign++(w++(f++e)))

/-- What may stand between quotes. An escape by number has four digits, whether or not it is half of
a surrogate pair. -/
inductive Chars : List Char → Prop
  | nil : Chars []
  | plain {c : Char} {s : List Char} (hlow : 0x20 ≤ c.toNat) (hquote : c ≠ '"') (hslash : c ≠ '\\')
    (hs : Chars s) : Chars (c::s)
  | escape {c : Char} {s : List Char} (hc : c ∈ ['"','\\','/','b','f','n','r','t'])
    (hs : Chars s) : Chars ('\\'::c::s)
  | unit {a b c d : Char} {s : List Char}
    (hx : ∀ x ∈ [a,b,c,d], '0' ≤ x ∧ x ≤ '9' ∨ 'a' ≤ x ∧ x ≤ 'f' ∨ 'A' ≤ x ∧ x ≤ 'F')
    (hs : Chars s) : Chars ('\\' :: 'u' :: a :: b :: c :: d :: s)

/-- What may stand between two tokens. -/
def Blanks (s : List Char) : Prop := ∀ c ∈ s, c ∈ [' ','\t','\n','\r']

instance (s : List Char) : Decidable (Blanks s) :=
  List.decidableBAll _ s

def memberText (m : List Char × List Char) : List Char := m.1 ++ ':'::m.2

/-- The text of a list, with blanks `b` in front of the first item or the end. -/
def listText (b : List Char) (ss : List (List Char)) : List Char :=
  '['::(b ++ separated [','] ss) ++ [']']

/-- The text of an object whose members are given by the texts of their keys and values. -/
def objectText (b : List Char) (ms : List (List Char × List Char)) : List Char :=
  '\x7b'::(b ++ separated [','] (ms.map memberText)) ++ ['\x7d']

def stringText (s : List Char) : List Char := '"'::s ++ ['"']

inductive KeyText : List Char → Prop
  | intro {b s b' : List Char} (hb : Blanks b) (hs : Chars s) (hb' : Blanks b') :
    KeyText (b ++ stringText s ++ b')

/-- The texts of values, with any blanks around them. -/
inductive WellFormed : List Char → Prop
  | nullWord : WellFormed ['n','u','l','l']
  | trueWord : WellFormed ['t','r','u','e']
  | falseWord : WellFormed ['f','a','l','s','e']
  | number {s : List Char} (hs : NumeralText s) : WellFormed s
  | string {s : List Char} (hs : Chars s) : WellFormed (stringText s)
  | list {b : List Char} (hb : Blanks b) {ss : List (List Char)} (hss : ∀ s ∈ ss, WellFormed s) :
    WellFormed (listText b ss)
  | object {b : List Char} (hb : Blanks b) {ms : List (List Char × List Char)}
    (hkeys : ∀ m ∈ ms, KeyText m.1) (hvalues : ∀ m ∈ ms, WellFormed m.2) :
    WellFormed (objectText b ms)
  | spaced {b s b' : List Char} (hb : Blanks b) (hs : WellFormed s) (hb' : Blanks b') :
    WellFormed (b++s++b')

end Lindenmayer.Json
