/-! The shortest decimal that rounds to a given binary number, the nearest such one if there are
several. Grids of powers of ten are tried from coarse to fine. -/

namespace Lindenmayer.Scalar
open Float.Model (Format UnpackedFloat totalExponent)

/-- The number `digits · 10 ^ exponent`. -/
structure Decimal where
  digits : Nat
  exponent : Int
deriving DecidableEq

namespace Shortest

/-- The numbers that round to `m · 2 ^ e`, with bounds counted in quarters of `2 ^ e`; the bounds
themselves round to it iff `m` is even. Below a power of two the next number is twice as near. -/
structure Reach where
  lower : Nat
  upper : Nat
  closed : Bool
deriving DecidableEq

def reach (spec : Format) (m : Nat) (e : Int) : Reach where
  lower := if m = Nat.pow 2 (spec.mantissaBits-1) ∧ spec.minExponent < e then 4*m-1 else 4*m-2
  upper := 4*m+2
  closed := m % 2 == 0

def Reach.mem (r : Reach) (quarter ten : Nat) (k : Nat) : Bool :=
  if r.closed then r.lower*quarter ≤ k*ten ∧ k*ten ≤ r.upper*quarter
  else r.lower*quarter < k*ten ∧ k*ten < r.upper*quarter

/-- A quarter of `2 ^ e` in the units in which `10 ^ p` is `ten e p`. -/
def quarter (e p : Int) : Nat := Nat.pow 2 (e-2).toNat * Nat.pow 10 (-p).toNat
def ten (e p : Int) : Nat := Nat.pow 2 (2-e).toNat * Nat.pow 10 p.toNat

/-- The multiple of `10 ^ p` nearest to `m · 2 ^ e` that rounds to it. Only the two neighbours can
be that; of two equally near ones the even one is taken. -/
def onGrid (spec : Format) (m : Nat) (e p : Int) : Option Nat :=
  let r := reach spec m e
  let q := quarter e p
  let t := ten e p
  let k := 4*m*q / t
  match r.mem q t k, r.mem q t (k+1) with
  | true, true =>
    match compare (4*m*q-k*t) ((k+1)*t-4*m*q) with
    | .lt => some k
    | .eq => some (if k % 2 = 0 then k else k+1)
    | .gt => some (k+1)
  | true, false => some k
  | false, true => some (k+1)
  | false, false => none

/-- The number itself is on the last grid. -/
def search (spec : Format) (m : Nat) (e : Int) : Nat → Int → Decimal
  | 0, p => ⟨4*m*quarter e p / ten e p,p⟩
  | n+1, p =>
    match onGrid spec m e p with
    | some k => ⟨k,p⟩
    | none => search spec m e n (p-1)

end Shortest

/-- No grid above the first one tried has a multiple as small as `m · 2 ^ e`. -/
def shortest (spec : Format) (m : Nat) (e : Int) : Decimal :=
  let top : Int := (totalExponent m e).toNat/3+1
  Shortest.search spec m e (top-min e 0).toNat top

end Lindenmayer.Scalar
