import Lindenmayer.Proofs.Scalar.Whole
import Lindenmayer.Proofs.Turtle.Pen

/-! The channel that changes, when it and its rate are whole numbers. It wraps around after every
line, but it is where it would be if it had wrapped around only once, at the end. -/

namespace Lindenmayer
open Scalar

/-! ### Remainders one after the other -/

variable {a c d r : ℤ}

theorem abs_tmod_lt (a : ℤ) (hd : 0 < d) : |a.tmod d| < d :=
  abs_lt.2 ⟨Int.lt_tmod_of_pos a hd,Int.tmod_lt_of_pos a hd⟩

theorem tmod_of_abs_lt (h : |a| < d) : a.tmod d = a := by
  rcases abs_cases a with ⟨ha,h₀⟩ | ⟨ha,h₀⟩
  · exact Int.tmod_eq_of_lt h₀ (ha ▸ h)
  · have hneg := Int.tmod_eq_of_lt (a := -a) (by omega) (ha ▸ h)
    rw [Int.neg_tmod] at hneg
    omega

/-- A sum that grows is either not negative, and then its remainder has the sign of the next ones,
or so near to zero still that it is its own remainder. -/
theorem tmod_add_tmod_of_nonneg (hc : |c| < d) (hr : 0 ≤ r) (n : ℕ) :
    ((c+n*r).tmod d+r).tmod d = (c+n*r+r).tmod d := by
  have hd : 0 < d := (abs_nonneg c).trans_lt hc
  rcases le_or_gt 0 (c+n*r) with h | h
  · have hrem : 0 ≤ (c+n*r) % d := Int.emod_nonneg _ hd.ne'
    rw [Int.tmod_eq_emod_of_nonneg h,Int.tmod_eq_emod_of_nonneg (by omega),
      Int.tmod_eq_emod_of_nonneg (by omega),Int.emod_add_emod]
  · have hsum : 0 ≤ n*r := by positivity
    rw [tmod_of_abs_lt (a := c+n*r)]
    rw [abs_lt] at hc ⊢
    omega

theorem tmod_add_tmod (hc : |c| < d) (r : ℤ) (n : ℕ) :
    ((c+n*r).tmod d+r).tmod d = (c+n*r+r).tmod d := by
  rcases le_total 0 r with hr | hr
  · exact tmod_add_tmod_of_nonneg hc hr n
  · have h := tmod_add_tmod_of_nonneg (c := -c) (by rwa [abs_neg]) (neg_nonneg.2 hr) n
    have hneg : -c+n*(-r) = -(c+n*r) := by ring
    rw [hneg,Int.neg_tmod,← neg_add,← neg_add,Int.neg_tmod,Int.neg_tmod] at h
    exact neg_inj.1 h

/-! ### The first channel -/

theorem whole_channelEnd : Whole Color.channelEnd 255 :=
  .of_finite (s := .positive) (m := 255*2^16) (e := -16) (h := by decide) rfl
    (by norm_num [Float.Model.UnpackedFloat.Sign.apply])

variable {x rate : Float32}

theorem Color.iterate_advance (rest : List Float32) (hx : Whole x c) (hc : |c| < 255)
    (hr : Whole rate r) (hr' : |r| ≤ 2^24-255) (n : ℕ) :
    ∃ y, (fun k : Color => k.advance rate)^[n] ⟨x::rest⟩ = ⟨y::rest⟩ ∧
      Whole y ((c+n*r).tmod 255) := by
  induction n with
  | zero => exact ⟨x,rfl,by simpa [tmod_of_abs_lt hc] using hx⟩
  | succ n ih =>
    obtain ⟨y,hy,hw⟩ := ih
    refine ⟨remainder (y+rate) channelEnd,by rw [Function.iterate_succ_apply',hy]; rfl,?_⟩
    have hroom : |(c+n*r).tmod 255+r| < 2^24 := by
      have hrem := abs_tmod_lt (c+n*r) (d := 255) (by decide)
      have hsum := abs_add_le ((c+n*r).tmod 255) r
      omega
    have h := (hw.add hr hroom).remainder whole_channelEnd (by decide) (by decide)
    rwa [tmod_add_tmod hc,add_assoc,← add_one_mul,← Nat.cast_succ] at h

namespace Turtle

/-- Let the first channel be a whole number below 255 in magnitude, and let it change at a whole
rate. After `n` changes it is what `c+n*r` leaves on division by 255, with the sign of that number,
and nothing else has changed. So it is for the `n`th line of every pass. -/
theorem advance_progression (rest : List Float32) (hx : Whole x c) (hc : |c| < 255)
    (hr : Whole rate r) (hr' : |r| ≤ 2^24-255) :
    ∃ y : ℕ → Float32,
      (∀ n : ℕ, (fun k : Color => k.advance rate)^[n] ⟨x::rest⟩ = ⟨y n::rest⟩ ∧
        Whole (y n) ((c+n*r).tmod 255) ∧ |(c+n*r).tmod 255| < 255) ∧
      ∀ (t : Turtle) (b : Canvas), t.config.color = ⟨x::rest⟩ → t.config.colorChange = rate →
        t.config.changesColor = true → ∃ drawn : List Segment,
          (t.renderOn b).2.1.segments.toList = b.segments.toList ++ drawn ∧
          drawn.map Segment.color =
            (List.range ((executed t.config.instructions).count 'F')).map
              fun k => some ⟨y (k+1)::rest⟩ := by
  choose y hy hw using Color.iterate_advance rest hx hc hr hr'
  refine ⟨y,fun n => ⟨hy n,hw n,abs_tmod_lt _ (by decide)⟩,fun t b hcolor hchange hchanges => ?_⟩
  obtain ⟨drawn,hseg,hpens⟩ := pens_render t.config b
  refine ⟨drawn,hseg,?_⟩
  have hcolors := congrArg (List.map Prod.fst) hpens
  rw [List.map_map,List.map_map] at hcolors
  refine hcolors.trans (List.map_congr_left fun k _ => ?_)
  simp [Config.penColor,hchanges,hchange,hcolor,hy]

/-- Counted down by 300 the channel is at -35 for the third line, which is what -800 leaves. -/
theorem advance_progression_down :
    let t := Turtle.new { Config.initial with
      instructions := "F[F]]F".toList, color := ⟨[100,7]⟩, colorChange := -300 }
    (Whole 100 100 ∧ |(100 : ℤ)| < 255 ∧ Whole (-300) (-300) ∧ |(-300 : ℤ)| ≤ 2^24-255) ∧
      ∃ s y, (t.renderOn .empty).2.1.segments.toList[2]? = some s ∧ s.color = some ⟨[y,7]⟩ ∧
        Whole y (-35) := by
  intro t
  have hx : Whole 100 100 :=
    .of_finite (s := .positive) (m := 100*2^17) (e := -17) (h := by decide) rfl
      (by norm_num [Float.Model.UnpackedFloat.Sign.apply])
  have hr : Whole (-300) (-300) :=
    .of_finite (s := .negative) (m := 300*2^15) (e := -15) (h := by decide) rfl
      (by norm_num [Float.Model.UnpackedFloat.Sign.apply])
  obtain ⟨y,hy,hdraws⟩ := advance_progression [7] hx (by decide) hr (by decide)
  obtain ⟨drawn,hseg,hcolors⟩ := hdraws t .empty rfl rfl rfl
  have hthird : drawn[2]?.map Segment.color = some (some ⟨[y 3,7]⟩) := by
    rw [← List.getElem?_map,hcolors]
    rfl
  obtain ⟨s,hs,hcolor⟩ := Option.map_eq_some_iff.1 hthird
  exact ⟨⟨hx,by decide,hr,by decide⟩,s,y 3,by rw [hseg]; exact hs,hcolor,(hy 3).2.1⟩

end Turtle
end Lindenmayer
