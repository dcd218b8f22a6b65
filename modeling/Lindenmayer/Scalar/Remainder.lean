/-! The remainder of a division whose quotient is cut off towards zero. It is exact. -/

namespace Lindenmayer.Scalar
open Float.Model (UnpackedFloat)

/-- Both sides are brought to the smaller exponent; the sign is the dividend's. -/
def unpackedRemainder : UnpackedFloat → UnpackedFloat → UnpackedFloat
  | .finite s m₁ e₁ _, .finite _ m₂ e₂ _ =>
    let e := min e₁ e₂
    UnpackedFloat.round .binary32 s
      ((m₁ <<< (e₁-e).toNat) % (m₂ <<< (e₂-e).toNat)) e
  | .finite s m e h, .infinity _ => .finite s m e h
  | .zero s, .finite .. => .zero s
  | .zero s, .infinity _ => .zero s
  | _, _ => .notANumber

def remainder (x y : Float32) : Float32 :=
  .ofModel (.pack (unpackedRemainder x.toModel.unpack y.toModel.unpack))

end Lindenmayer.Scalar
