import Lindenmayer.Scalar.Remainder

/-! Colors as lists of channels: one for a gray level, three for a mixture, or any other number. -/

namespace Lindenmayer

structure Color where
  channels : List Float32
deriving DecidableEq, BEq

namespace Color

/-- Where a channel that is advanced starts again. -/
def channelEnd : Float32 := 255

def none : Color := ⟨[]⟩
def gray (level : Float32) : Color := ⟨[level]⟩
def rgb (r g b : Float32) : Color := ⟨[r,g,b]⟩
def red : Color := rgb 255 0 0

/-- Advances the first channel, if there is one. -/
def advance (c : Color) (rate : Float32) : Color :=
  match c.channels with
  | [] => c
  | x::rest => ⟨Scalar.remainder (x+rate) channelEnd::rest⟩

@[simp] theorem advance_none (rate : Float32) : none.advance rate = none := rfl
@[simp] theorem length_advance (c : Color) (rate : Float32) :
    (c.advance rate).channels.length = c.channels.length := by
  rcases c with ⟨_ | _⟩ <;> rfl

end Color
end Lindenmayer
