import Lindenmayer.Json.Numeral
import Lindenmayer.Scalar.Rounding

/-! The numbers that numerals stand for, and the numerals that numbers are written as. -/

namespace Lindenmayer.Json
open Float.Model (Format UnpackedFloat)

inductive Number
  | integer (n : Int)
  | floating (x : Float)
deriving DecidableEq

/-- Takes digits while the number stays below `2 ^ 64`, and counts those that it leaves. -/
def gather (n : Nat) : List Char → Nat × Nat
  | [] => (n,0)
  | c::r => if 10*n+digitValue c < UInt64.size then gather (10*n+digitValue c) r else (n,r.length+1)

def powerOfTen (n : Nat) : Float := Float.ofScientific 1 false n

/-- Divides by `10 ^ n`, by the largest power there is as long as `n` is too large. -/
def divideByPower (x : Float) (n : Nat) : Float :=
  if _ : n ≤ 308 then x/powerOfTen n
  else if x == 0 then x
  else divideByPower (x/powerOfTen 308) (n-308)
termination_by n
decreasing_by omega

/-- Nothing if the product is not finite. -/
def scale? (x : Float) (e : Int) : Option Float :=
  if e < 0 then some (divideByPower x e.natAbs)
  else if x == 0 then some x
  else if 308 < e then none
  else
    let y := x*powerOfTen e.toNat
    if y.isInf then none else some y

namespace Numeral

def isInteger (n : Numeral) : Bool := n.fraction.isEmpty && n.exponent.isNone

/-- The value in double precision. Of the digits only as many count as fit into 64 bits; a whole
digit left out still counts as a place. -/
def floating? (n : Numeral) : Option Float :=
  let whole := gather 0 n.whole
  let all := gather whole.1 n.fraction
  let places : Int := whole.2+all.2-n.fraction.length
  (scale? (.ofNat all.1) (places+n.exponent.getD 0)).map fun x => if n.negative then -x else x

/-- An integer that 64 bits can hold is one; a negative zero is not. -/
def integer? (n : Numeral) : Option Int :=
  let k := value n.whole
  if n.negative then if 0 < k ∧ 2*k ≤ UInt64.size then some (-(k : Int)) else none
  else if k < UInt64.size then some k else none

/-- Nothing if the number is too large for double precision. -/
def number? (n : Numeral) : Option Number :=
  match if n.isInteger then n.integer? else none with
  | some k => some (.integer k)
  | none => n.floating?.map .floating

end Numeral

/-- Rounded once from an integer, twice from anything else. -/
def Number.single : Number → Float32
  | .integer n => .ofInt n
  | .floating x => Scalar.narrow x

/-- The exponents of the first digit for which no exponent is written. -/
structure Layout where
  lowest : Int
  highest : Int
deriving DecidableEq

def Layout.single : Layout := ⟨-6,12⟩
def Layout.double : Layout := ⟨-5,15⟩

/-- There is a fraction always, unless there is an exponent. -/
def Layout.numeral (l : Layout) (negative : Bool) (d : Scalar.Decimal) : Numeral :=
  let ds := decimal d.digits
  let first : Int := d.exponent+ds.length-1
  if l.lowest ≤ first ∧ first ≤ l.highest then
    if 0 ≤ d.exponent then ⟨negative,ds ++ List.replicate d.exponent.toNat '0',['0'],none⟩
    else if 0 ≤ first then ⟨negative,ds.take (first.toNat+1),ds.drop (first.toNat+1),none⟩
    else ⟨negative,['0'],List.replicate (-first-1).toNat '0' ++ ds,none⟩
  else ⟨negative,ds.take 1,ds.drop 1,some first⟩

/-- The shortest numeral of a number, if it is one and finite. -/
def Layout.numeral? (l : Layout) (spec : Format) : UnpackedFloat → Option Numeral
  | .finite s m e _ => some (l.numeral (s == .negative) (Scalar.shortest spec m e))
  | .zero s => some ⟨s == .negative,['0'],['0'],none⟩
  | .infinity _ => none
  | .notANumber => none

def Numeral.ofSingle? (x : Float32) : Option Numeral :=
  Layout.single.numeral? .binary32 x.toModel.unpack
def Numeral.ofDouble? (x : Float) : Option Numeral :=
  Layout.double.numeral? .binary64 x.toModel.unpack

end Lindenmayer.Json
