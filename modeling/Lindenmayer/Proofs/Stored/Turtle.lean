import Lindenmayer.Proofs.Json.Reading
import Lindenmayer.Proofs.Json.Single
import Lindenmayer.Stored.Turtle

/-! Configurations of turtles come back from the documents they were written to, if all their
numbers are finite. -/

namespace Lindenmayer
open Json

namespace Color

def Finite (c : Color) : Prop := ∀ x ∈ c.channels, x.isFinite = true

variable {c : Color}

theorem intact_toJson (hc : c.Finite) : c.toJson.Intact := by
  refine .list fun v hv => ?_
  obtain ⟨x,hx,rfl⟩ := List.mem_map.1 hv
  exact intact_single (hc x hx)

theorem ofJson_toJson (hc : c.Finite) : Color.ofJson c.toJson = .ok c := by
  have hchannels := Json.toList_array fun x hx => toSingle_single (hc x hx)
  rw [toJson,ofJson,hchannels]
  rfl

end Color

namespace Turtle.Config

/-- A configuration without infinities and without anything that is no number. -/
structure Finite (c : Config) : Prop where
  length : c.length.isFinite = true
  leftTurn : c.leftTurn.isFinite = true
  rightTurn : c.rightTurn.isFinite = true
  color : c.color.Finite
  colorChange : c.colorChange.isFinite = true
  weight : c.weight.isFinite = true

variable {c : Config}

theorem intact_toJson (hc : c.Finite) : c.toJson.Intact := by
  refine intact_record fun m hm => ?_
  simp only [List.mem_cons,List.not_mem_nil,or_false] at hm
  rcases hm with rfl | rfl | rfl | rfl | rfl | rfl | rfl | rfl | rfl
  · exact .text c.instructions
  · exact intact_single hc.length
  · exact intact_single hc.leftTurn
  · exact intact_single hc.rightTurn
  · exact Color.intact_toJson hc.color
  · exact intact_single hc.colorChange
  · exact intact_single hc.weight
  · exact .bool c.changesColor
  · exact .bool c.showsHead

theorem read_toJson (hc : c.Finite) : record.read c.toJson = .ok c := by
  have hlength := toSingle_single hc.length
  have hleft := toSingle_single hc.leftTurn
  have hright := toSingle_single hc.rightTurn
  have hcolor := Color.ofJson_toJson hc.color
  have hchange := toSingle_single hc.colorChange
  have hweight := toSingle_single hc.weight
  rw [toJson,Record.read_record]
  simp only [List.map_cons,List.map_nil]
  rw [Record.readMembers_field_ok rfl (by decide) rfl,
    Record.readMembers_field_ok rfl (by decide) (congrArg (Except.map _) hlength),
    Record.readMembers_field_ok rfl (by decide) (congrArg (Except.map _) hleft),
    Record.readMembers_field_ok rfl (by decide) (congrArg (Except.map _) hright),
    Record.readMembers_field_ok rfl (by decide) (congrArg (Except.map _) hcolor),
    Record.readMembers_field_ok rfl (by decide) (congrArg (Except.map _) hchange),
    Record.readMembers_field_ok rfl (by decide) (congrArg (Except.map _) hweight),
    Record.readMembers_field_ok rfl (by decide) rfl,
    Record.readMembers_field_ok rfl (by decide) rfl]
  rfl

/-- The text that a configuration is written as is read as that configuration. Its numbers are
written with as few digits as tell them from the other singles, and are read by way of double
precision, a multiplication or a division by a power of ten; still each of them is what it was. -/
theorem run_toJson_of_finite (c : Config) (hc : c.Finite) :
    ofJson.run c.toJson.render = .ok c := by
  rw [Reader.run_render _ (intact_toJson hc)]
  exact read_toJson hc

/-- Numbers that are hard to read back: those whose decimals are nearly half-way to the next single,
a zero with a sign, the smallest and the largest single, and a power of two. -/
theorem run_toJson_of_finite_hard :
    let c : Config := ⟨"F[+\"\\😀\n]".toList,.ofBits 0x15ae43fd,.ofBits 0x80000000,.ofBits 1,
      ⟨[.ofBits 0x7f7fffff,.ofBits 0x8b800000,.ofBits 0x3dcccccd,255]⟩,.ofBits 0x08898b53,
      .ofBits 0x4b000000,false,true⟩
    c.Finite ∧ ofJson.run c.toJson.render = .ok c := by
  intro c
  have hc : c.Finite := ⟨by decide +kernel,by decide +kernel,by decide +kernel,by
    unfold Color.Finite
    decide +kernel,by decide +kernel,by decide +kernel⟩
  exact ⟨hc,run_toJson_of_finite c hc⟩

end Turtle.Config
end Lindenmayer
