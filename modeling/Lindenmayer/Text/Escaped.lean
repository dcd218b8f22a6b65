import Lindenmayer.Text.Plain
import Lindenmayer.Word

/-! Words as they are quoted in messages. -/

namespace Lindenmayer.Text

/-- Every character that would not be seen for itself is escaped, by name or by number. -/
def escaped (c : Char) : List Char :=
  match c with
  | '\x00' => ['\\','0']
  | '\t' => ['\\','t']
  | '\r' => ['\\','r']
  | '\n' => ['\\','n']
  | '"' => ['\\','"']
  | '\\' => ['\\','\\']
  | c =>
    if isPlain c then [c]
    else ['\\','u','\x7b'] ++ Nat.toDigits 16 c.toNat ++ ['\x7d']

def quoted (w : Word) : String := String.ofList ('"'::w.flatMap escaped ++ ['"'])

end Lindenmayer.Text
