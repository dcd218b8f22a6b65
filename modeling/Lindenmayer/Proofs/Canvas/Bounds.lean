import Lindenmayer.Proofs.Scalar.Order
import Lindenmayer.Proofs.Canvas.Record

/-! The box around all lines. A NaN makes a bound NaN, and the next number starts anew; so each bound
is that of the numbers after the last NaN. -/

namespace Lindenmayer

/-! ### Along one axis -/

namespace Scalar

/-- The numbers after the last NaN; without one, all of them. -/
def live (xs : List Float32) : List Float32 := xs.rtakeWhile (· ≠ .nan)

/-- The bound `y` is in the relation `r` to all numbers after the last NaN, and is one of them. If a
NaN comes last, so that there are none, the bound is NaN. -/
structure Extreme (r : Float32 → Float32 → Prop) (xs : List Float32) (y : Float32) : Prop where
  nan : (∀ x ∈ xs.getLast?, x = .nan) → y = .nan
  mem : ∀ x ∈ xs.getLast?, x ≠ .nan → y ∈ live xs
  rel : ∀ x ∈ live xs, r y x

variable {r : Float32 → Float32 → Prop} {pick : Float32 → Float32 → Float32}
variable {xs : List Float32} {x y : Float32}

theorem live_append_nan (xs : List Float32) : live (xs++[.nan]) = [] :=
  List.rtakeWhile_concat_neg _ _ _ (by simp)

theorem live_append (xs : List Float32) (hx : x ≠ .nan) : live (xs++[x]) = live xs ++ [x] :=
  List.rtakeWhile_concat_pos _ _ _ (by simp [hx])

theorem live_eq_self (h : ∀ x ∈ xs, x ≠ .nan) : live xs = xs :=
  List.rtakeWhile_eq_self_iff.2 (by simpa using h)

theorem ne_nan_of_mem_live (hx : x ∈ live xs) : x ≠ .nan := by
  simpa using List.mem_rtakeWhile_imp hx

theorem live_eq_nil (h : ∀ x ∈ xs.getLast?, x = .nan) : live xs = [] := by
  induction xs using List.reverseRecOn with
  | nil => rfl
  | append_singleton xs x =>
    rw [h x (by simp)]
    exact live_append_nan xs

theorem Extreme.mem_of_ne_nan (h : Extreme r xs y) (hy : y ≠ .nan) : y ∈ live xs := by
  obtain ⟨x,hx,hne⟩ : ∃ x ∈ xs.getLast?, x ≠ .nan := by
    by_contra! hnan
    exact hy (h.nan hnan)
  exact h.mem x hx hne

theorem Extreme.live_eq_nil (h : Extreme r xs .nan) : live xs = [] := by
  refine Scalar.live_eq_nil fun x hx => ?_
  by_contra hne
  exact ne_nan_of_mem_live (h.mem x hx hne) rfl

section
variable (hxs : ∀ x ∈ xs, x ≠ .nan)
include hxs

theorem Extreme.rel_of_mem (h : Extreme r xs y) (hx : x ∈ xs) : r y x :=
  h.rel x (by rwa [live_eq_self hxs])

theorem Extreme.mem_of_numbers (h : Extreme r xs y) (hne : xs ≠ []) : y ∈ xs := by
  have hlast : xs.getLast hne ∈ xs.getLast? := List.getLast?_eq_some_getLast hne
  have hmem := h.mem _ hlast (hxs _ (List.getLast_mem hne))
  rwa [live_eq_self hxs] at hmem

theorem Extreme.rel_trans (hp : Picks r pick) (h : Extreme r xs y) (hne : xs ≠ []) {z w : Float32}
    (hz : ∀ x ∈ xs, r z x) (hw : r y w) : r z w :=
  hp.trans (hz y (h.mem_of_numbers hxs hne)) hw

end

theorem Picks.self (hp : Picks r pick) (hx : x ≠ .nan) : r x x := by
  have hr : r (pick x x) x := hp.left hx hx
  rwa [or_self_iff.1 (hp.eq_or_eq x x)] at hr

theorem extreme_last (hp : Picks r pick) (h : x = .nan ∨ live xs = []) :
    Extreme r (xs++[x]) x := by
  by_cases hx : x = .nan
  · subst hx
    exact ⟨fun _ => rfl,by simp,by simp [live_append_nan]⟩
  · have hlive : live (xs++[x]) = [x] := by
      rw [live_append xs hx,h.resolve_left hx,List.nil_append]
    exact ⟨fun hall => hall x (by simp),by simp [hlive],by simp [hlive,hp.self hx]⟩

theorem extreme_singleton (hp : Picks r pick) (x : Float32) : Extreme r [x] x :=
  @extreme_last r pick [] x hp (.inr rfl)

/-- To take one more number into account, the bound or that number is picked. -/
theorem Extreme.append (hp : Picks r pick) (h : Extreme r xs y) (x : Float32) :
    Extreme r (xs++[x]) (pick y x) := by
  by_cases hnan : y = .nan ∨ x = .nan
  · rw [hp.newer hnan]
    exact extreme_last hp (hnan.symm.imp_right fun hy => (hy ▸ h).live_eq_nil)
  obtain ⟨hy,hx⟩ := not_or.1 hnan
  have hlive : live (xs++[x]) = live xs ++ [x] := live_append xs hx
  refine ⟨fun hall => absurd (hall x (by simp)) hx,fun _ _ _ => ?_,fun z hz => ?_⟩
  · rw [hlive,List.mem_append,List.mem_singleton]
    rcases hp.eq_or_eq y x with hpick | hpick
    · rw [hpick]
      exact .inl (h.mem_of_ne_nan hy)
    · exact .inr hpick
  · rw [hlive,List.mem_append,List.mem_singleton] at hz
    rcases hz with hz | rfl
    · exact hp.trans (hp.left hy hx) (h.rel z hz)
    · exact hp.right hy hx

end Scalar

/-! ### Boxes -/

namespace Box
open Scalar

/-- On each axis the bounds are those of the points `vs`. -/
structure Around (b : Box) (vs : List Vec) : Prop where
  minX : Extreme (· ≤ ·) (vs.map (·.x)) b.min.x
  maxX : Extreme (· ≥ ·) (vs.map (·.x)) b.max.x
  minY : Extreme (· ≤ ·) (vs.map (·.y)) b.min.y
  maxY : Extreme (· ≥ ·) (vs.map (·.y)) b.max.y

/-- The point is in the box or on its border. -/
structure Contains (b : Box) (v : Vec) : Prop where
  minX : b.min.x ≤ v.x
  maxX : v.x ≤ b.max.x
  minY : b.min.y ≤ v.y
  maxY : v.y ≤ b.max.y

theorem around_ofPoint (v : Vec) : (ofPoint v).Around [v] where
  minX := extreme_singleton picks_lesser v.x
  maxX := extreme_singleton picks_greater v.x
  minY := extreme_singleton picks_lesser v.y
  maxY := extreme_singleton picks_greater v.y

theorem Around.add {b : Box} {vs : List Vec} (h : b.Around vs) (v : Vec) :
    (b.add v).Around (vs++[v]) := by
  constructor <;> rw [List.map_append]
  · exact h.minX.append picks_lesser v.x
  · exact h.maxX.append picks_greater v.x
  · exact h.minY.append picks_lesser v.y
  · exact h.maxY.append picks_greater v.y

theorem ofPoint_add_self (v : Vec) : (ofPoint v).add v = ofPoint v := by
  unfold ofPoint add lesser greater
  simp only [ite_self]

/-- There is a box if there are points, and it is around them. -/
structure Boxed (vs : List Vec) (b : Option Box) : Prop where
  eq_none_iff : b = none ↔ vs = []
  around : ∀ k ∈ b, k.Around vs

def cover (b : Option Box) (s : Segment) : Option Box :=
  some (((b.getD (.ofPoint s.start)).add s.start).add s.finish)

theorem Boxed.cover {vs : List Vec} {b : Option Box} (h : Boxed vs b) (s : Segment) :
    Boxed (vs++[s.start,s.finish]) (Box.cover b s) := by
  refine ⟨by simp [Box.cover],fun k hk => ?_⟩
  obtain rfl := Option.some_inj.1 hk
  cases b with
  | none =>
    rw [h.eq_none_iff.1 rfl,Option.getD_none,ofPoint_add_self]
    exact (around_ofPoint s.start).add s.finish
  | some k =>
    have hadd := ((h.around k rfl).add s.start).add s.finish
    rwa [List.append_assoc] at hadd

theorem Boxed.coverAll {vs : List Vec} {b : Option Box} (h : Boxed vs b) (l : List Segment) :
    Boxed (vs++l.flatMap fun s => [s.start,s.finish]) (l.foldl Box.cover b) := by
  induction l generalizing vs b with
  | nil => simpa using h
  | cons s l ih =>
    rw [List.flatMap_cons,← List.append_assoc]
    exact ih (h.cover s)

section
variable {b k : Box} {vs : List Vec} {v : Vec}
variable (hx : ∀ x ∈ vs.map (·.x), x ≠ .nan) (hy : ∀ y ∈ vs.map (·.y), y ≠ .nan)
include hx hy

theorem Around.contains (h : b.Around vs) (hv : v ∈ vs) : b.Contains v := by
  have hvx : v.x ∈ vs.map (·.x) := List.mem_map_of_mem hv
  have hvy : v.y ∈ vs.map (·.y) := List.mem_map_of_mem hv
  have hmaxX : b.max.x ≥ v.x := h.maxX.rel_of_mem hx hvx
  have hmaxY : b.max.y ≥ v.y := h.maxY.rel_of_mem hy hvy
  exact ⟨h.minX.rel_of_mem hx hvx,hmaxX,h.minY.rel_of_mem hy hvy,hmaxY⟩

theorem Around.contains_of_contains (h : b.Around vs) (hne : vs ≠ [])
    (hk : ∀ v ∈ vs, k.Contains v) (hv : b.Contains v) : k.Contains v := by
  have hne (f : Vec → Float32) : vs.map f ≠ [] := fun h => hne (List.map_eq_nil_iff.1 h)
  constructor
  · exact h.minX.rel_trans hx picks_lesser (hne _)
      (List.forall_mem_map.2 fun v hv => (hk v hv).minX) hv.minX
  · exact h.maxX.rel_trans hx picks_greater (hne _)
      (List.forall_mem_map.2 fun v hv => (hk v hv).maxX) hv.maxX
  · exact h.minY.rel_trans hy picks_lesser (hne _)
      (List.forall_mem_map.2 fun v hv => (hk v hv).minY) hv.minY
  · exact h.maxY.rel_trans hy picks_greater (hne _)
      (List.forall_mem_map.2 fun v hv => (hk v hv).maxY) hv.maxY

end

end Box

namespace Canvas

/-- The ends of all lines, as they were drawn. -/
def ends (c : Canvas) : List Vec := c.segments.toList.flatMap fun s => [s.start,s.finish]

theorem boxed_bounds (c : Canvas) : Box.Boxed c.ends c.bounds := by
  have hnone : Box.Boxed [] none := ⟨by simp,by simp⟩
  have hbounds : c.bounds = c.segments.toList.foldl Box.cover none := (Array.foldl_toList ..).symm
  rw [hbounds]
  exact hnone.coverAll c.segments.toList

theorem ends_eq_nil_iff (c : Canvas) : c.ends = [] ↔ c.segments = #[] := by
  rw [ends,List.flatMap_eq_nil_iff,← Array.toList_eq_nil_iff,List.eq_nil_iff_forall_not_mem]
  simp

theorem segments_drawAll_eq_empty_iff (c : Canvas) (ops : List DrawOp) :
    (c.drawAll ops).segments = #[] ↔ c.segments = #[] ∧ ∀ op ∈ ops, op.isLine = false := by
  obtain ⟨drawn,hsegments,hlength⟩ := c.segments_drawAll ops
  rw [← Array.toList_eq_nil_iff,hsegments,List.append_eq_nil_iff,Array.toList_eq_nil_iff,
    ← List.length_eq_zero_iff,hlength,List.countP_eq_zero]
  simp

/-- There is no box iff no line has been drawn. On each axis, if the last coordinate is NaN, both
bounds are; otherwise the lower bound is at most, and the upper at least, all coordinates after the
last NaN, and each is one of them. Without any NaN the box contains the ends of all lines, and every
other box that does contains it. -/
theorem bounds_around (c : Canvas) :
    (c.bounds = none ↔ c.segments = #[]) ∧
    (∀ ops : List DrawOp, (c.drawAll ops).bounds = none ↔
      c.bounds = none ∧ ∀ op ∈ ops, op.isLine = false) ∧
    ∀ b ∈ c.bounds, b.Around c.ends ∧
      ((∀ v ∈ c.ends, v.x ≠ .nan ∧ v.y ≠ .nan) → (∀ v ∈ c.ends, b.Contains v) ∧
        ∀ k : Box, (∀ v ∈ c.ends, k.Contains v) → ∀ v, b.Contains v → k.Contains v) := by
  have hnone (c : Canvas) : c.bounds = none ↔ c.segments = #[] :=
    c.boxed_bounds.eq_none_iff.trans c.ends_eq_nil_iff
  refine ⟨hnone c,fun ops => ?_,fun b hb => ?_⟩
  · rw [hnone,hnone,segments_drawAll_eq_empty_iff]
  have haround : b.Around c.ends := c.boxed_bounds.around b hb
  have hne : c.ends ≠ [] := fun h => by
    rw [c.boxed_bounds.eq_none_iff.2 h] at hb
    cases hb
  refine ⟨haround,fun hnumbers => ?_⟩
  have hx : ∀ x ∈ c.ends.map (·.x), x ≠ .nan := List.forall_mem_map.2 fun v hv => (hnumbers v hv).1
  have hy : ∀ y ∈ c.ends.map (·.y), y ≠ .nan := List.forall_mem_map.2 fun v hv => (hnumbers v hv).2
  exact ⟨fun v hv => haround.contains hx hy hv,
    fun k hk v hv => haround.contains_of_contains hx hy hne hk hv⟩

/-- With a NaN in it the first line is not in the box; without one both lines are. -/
theorem bounds_around_two :
    let strayed := empty.drawAll [.line ⟨0,0⟩ ⟨.nan,2⟩,.line ⟨3,1⟩ ⟨1,2⟩]
    let whole := empty.drawAll [.line ⟨0,0⟩ ⟨-1,2⟩,.line ⟨3,1⟩ ⟨1,2⟩]
    (strayed.bounds = some ⟨⟨1,1⟩,⟨3,2⟩⟩ ∧ (⟨⟨1,1⟩,⟨3,2⟩⟩ : Box).Around strayed.ends) ∧
    whole.bounds = some ⟨⟨-1,0⟩,⟨3,2⟩⟩ ∧
      (∀ v ∈ whole.ends, (⟨⟨-1,0⟩,⟨3,2⟩⟩ : Box).Contains v) ∧
      ∀ k : Box, (∀ v ∈ whole.ends, k.Contains v) →
        ∀ v, (⟨⟨-1,0⟩,⟨3,2⟩⟩ : Box).Contains v → k.Contains v := by
  intro strayed whole
  have hstrayed : strayed.bounds = some ⟨⟨1,1⟩,⟨3,2⟩⟩ := by decide +kernel
  have hwhole : whole.bounds = some ⟨⟨-1,0⟩,⟨3,2⟩⟩ := by decide +kernel
  have hnumbers : ∀ v ∈ whole.ends, v.x ≠ .nan ∧ v.y ≠ .nan := by decide +kernel
  exact ⟨⟨hstrayed,((bounds_around strayed).2.2 _ hstrayed).1⟩,hwhole,
    ((bounds_around whole).2.2 _ hwhole).2 hnumbers⟩

end Canvas
end Lindenmayer
