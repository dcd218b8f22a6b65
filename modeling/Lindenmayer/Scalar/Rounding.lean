/-! Moving numbers between binary formats: to the nearest, a tie to the even neighbour. -/

namespace Lindenmayer.Scalar
open Float.Model (Format UnpackedFloat)

/-- The value in a format that may have less room than the one it comes from. -/
def fit (spec : Format) : UnpackedFloat → UnpackedFloat
  | .finite s m e _ => UnpackedFloat.round spec s m e
  | .zero s => .zero s
  | .infinity s => .infinity s
  | .notANumber => .notANumber

/-- Single precision from double precision. -/
def narrow (x : Float) : Float32 :=
  .ofModel (.pack (fit .binary32 x.toModel.unpack))

/-- Double precision from single precision, which loses nothing. -/
def widen (x : Float32) : Float :=
  .ofModel (.pack (fit .binary64 x.toModel.unpack))

end Lindenmayer.Scalar
