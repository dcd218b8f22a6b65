import Lindenmayer.Scalar.Rounding

/-! Elementary functions in single precision: worked out in double precision, then rounded once. -/

namespace Lindenmayer.Scalar

def sin (x : Float32) : Float32 := narrow (widen x).sin
def cos (x : Float32) : Float32 := narrow (widen x).cos
def power (x y : Float32) : Float32 := narrow ((widen x).pow (widen y))

end Lindenmayer.Scalar
