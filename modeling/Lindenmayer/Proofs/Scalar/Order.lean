import Lindenmayer.Plane.Box
import Mathlib

/-! The order of numbers in single precision. NaN compares with nothing; all others stand in one
line, on which both zeros have the same place. -/

namespace Lindenmayer.Scalar
open Float.Model Float.Model.UnpackedFloat

/-- The place among all numbers that compare: the class, then the exponent and the mantissa. -/
def place? : UnpackedFloat → Option (ℤ ×ₗ ℤ ×ₗ ℤ)
  | .infinity s => some (toLex (s.apply 2,toLex (0,0)))
  | .finite s m e _ => some (toLex (s.apply 1,toLex (s.apply e,s.apply m)))
  | .zero _ => some (toLex (0,toLex (0,0)))
  | .notANumber => none

/-! ### Comparisons are comparisons of places -/

theorem compare_toLex {α β : Type} [LinearOrder α] [LinearOrder β] (a c : α) (b d : β) :
    compare (toLex (a,b)) (toLex (c,d)) = (compare a c).then (compare b d) := by
  rw [Prod.Lex.compare_def]
  rfl

theorem compare_neg (a b : ℤ) : compare (-a) (-b) = (compare a b).swap := by
  rw [Int.compare_swap]
  simp only [Int.compare_eq_ite_lt,neg_lt_neg_iff]

theorem compare_natCast (a b : ℕ) : compare (a : ℤ) (b : ℤ) = compare a b := by
  simp only [Int.compare_eq_ite_lt,Nat.compare_eq_ite_lt,Nat.cast_lt]

theorem compare_finite {s t : Sign} {m n : ℕ} {e f : ℤ} (hm : 0 < m) (hn : 0 < n) :
    (finite s m e hm).compare (finite t n f hn) =
      some (compare (toLex (s.apply 1,toLex (s.apply e,s.apply m)))
        (toLex (t.apply 1,toLex (t.apply f,t.apply n)))) := by
  simp only [compare_toLex]
  cases s <;> cases t
  case negative.negative =>
    simp only [Sign.apply,compare_neg,compare_natCast,← Ordering.swap_then]
    rfl
  case positive.positive =>
    simp only [Sign.apply,compare_natCast]
    rfl
  all_goals rfl

theorem compare_of_place? {u v : UnpackedFloat} {a b : ℤ ×ₗ ℤ ×ₗ ℤ} (ha : place? u = some a)
    (hb : place? v = some b) : u.compare v = some (compare a b) := by
  rcases u with s | - | s | ⟨s,m,e,hm⟩ <;> rcases v with t | - | t | ⟨t,n,f,hn⟩ <;> cases ha <;>
    cases hb
  case finite.finite => exact compare_finite hm hn
  all_goals
    simp only [compare_toLex]
    cases s <;> cases t <;> rfl

section
variable {x y z : Float32} {a b : ℤ ×ₗ ℤ ×ₗ ℤ}

theorem unpack_eq_notANumber_iff : x.toModel.unpack = .notANumber ↔ x = .nan := by
  have hnan : x.isNaN = true ↔ x = .nan := by simp
  rw [← isNaN_iff]
  exact hnan

theorem exists_place (hx : x ≠ .nan) : ∃ a, place? x.toModel.unpack = some a := by
  cases h : x.toModel.unpack with
  | notANumber => exact absurd (unpack_eq_notANumber_iff.1 h) hx
  | _ => exact ⟨_,rfl⟩

theorem compare_nan (h : x = .nan ∨ y = .nan) :
    x.toModel.unpack.compare y.toModel.unpack = none := by
  rcases h with hx | hy
  · rw [unpack_eq_notANumber_iff.2 hx]
    rfl
  · rw [unpack_eq_notANumber_iff.2 hy]
    cases x.toModel.unpack <;> rfl

theorem lt_iff_compare :
    x < y ↔ x.toModel.unpack.compare y.toModel.unpack = some .lt := by
  have hlt : x < y ↔ x.toModel.unpack.lt y.toModel.unpack = true := decide_eq_true_iff
  rw [hlt,UnpackedFloat.lt,beq_iff_eq]

theorem le_iff_compare :
    x ≤ y ↔ (x.toModel.unpack.compare y.toModel.unpack).any (·.isLE) = true := decide_eq_true_iff

theorem lt_iff_place (ha : place? x.toModel.unpack = some a)
    (hb : place? y.toModel.unpack = some b) : x < y ↔ a < b := by
  rw [lt_iff_compare,compare_of_place? ha hb,Option.some_inj,compare_lt_iff_lt]

theorem le_iff_place (ha : place? x.toModel.unpack = some a)
    (hb : place? y.toModel.unpack = some b) : x ≤ y ↔ a ≤ b := by
  rw [le_iff_compare,compare_of_place? ha hb,Option.any_some,Ordering.isLE_iff_ne_gt]
  exact compare_le_iff_le

/-! ### The order -/

theorem not_lt_nan (h : x = .nan ∨ y = .nan) : ¬ x < y := by
  rw [lt_iff_compare,compare_nan h]
  simp

theorem ne_nan_of_le (h : x ≤ y) : x ≠ .nan ∧ y ≠ .nan := by
  rw [le_iff_compare] at h
  rw [← not_or]
  intro hnan
  rw [compare_nan hnan] at h
  cases h

protected theorem le_refl (hx : x ≠ .nan) : x ≤ x := by
  obtain ⟨a,ha⟩ := exists_place hx
  exact (le_iff_place ha ha).2 le_rfl

protected theorem le_trans (hxy : x ≤ y) (hyz : y ≤ z) : x ≤ z := by
  obtain ⟨a,ha⟩ := exists_place (ne_nan_of_le hxy).1
  obtain ⟨b,hb⟩ := exists_place (ne_nan_of_le hxy).2
  obtain ⟨c,hc⟩ := exists_place (ne_nan_of_le hyz).2
  rw [le_iff_place ha hb] at hxy
  rw [le_iff_place hb hc] at hyz
  exact (le_iff_place ha hc).2 (hxy.trans hyz)

protected theorem le_of_lt (h : x < y) : x ≤ y := by
  have hnumbers : x ≠ .nan ∧ y ≠ .nan := not_or.1 fun hnan => not_lt_nan hnan h
  obtain ⟨a,ha⟩ := exists_place hnumbers.1
  obtain ⟨b,hb⟩ := exists_place hnumbers.2
  exact (le_iff_place ha hb).2 ((lt_iff_place ha hb).1 h).le

protected theorem le_of_not_lt (hx : x ≠ .nan) (hy : y ≠ .nan) (h : ¬ x < y) : y ≤ x := by
  obtain ⟨a,ha⟩ := exists_place hx
  obtain ⟨b,hb⟩ := exists_place hy
  rw [lt_iff_place ha hb,not_lt] at h
  exact (le_iff_place hb ha).2 h

end

/-! ### The lesser and the greater of two -/

/-- Of two numbers one is picked that is in the relation `r` to both, and with a NaN the newer. -/
structure Picks (r : Float32 → Float32 → Prop) (pick : Float32 → Float32 → Float32) : Prop where
  eq_or_eq : ∀ x y, pick x y = x ∨ pick x y = y
  newer : ∀ {x y}, x = .nan ∨ y = .nan → pick x y = y
  left : ∀ {x y}, x ≠ .nan → y ≠ .nan → r (pick x y) x
  right : ∀ {x y}, x ≠ .nan → y ≠ .nan → r (pick x y) y
  trans : ∀ {x y z}, r x y → r y z → r x z

theorem Picks.of_ite {before r : Float32 → Float32 → Prop} [DecidableRel before]
    (hnan : ∀ {x y}, x = .nan ∨ y = .nan → ¬ before x y) (hbefore : ∀ {x y}, before x y → r x y)
    (hafter : ∀ {x y}, x ≠ .nan → y ≠ .nan → ¬ before x y → r y x)
    (hrefl : ∀ {x}, x ≠ .nan → r x x) (htrans : ∀ {x y z}, r x y → r y z → r x z) :
    Picks r fun x y => if before x y then x else y where
  eq_or_eq _ _ := ite_eq_or_eq ..
  newer h := if_neg (hnan h)
  left hx hy := by
    split
    case isTrue => exact hrefl hx
    case isFalse h => exact hafter hx hy h
  right hx hy := by
    split
    case isTrue h => exact hbefore h
    case isFalse => exact hrefl hy
  trans := htrans

theorem picks_lesser : Picks (· ≤ ·) lesser :=
  .of_ite not_lt_nan Scalar.le_of_lt Scalar.le_of_not_lt Scalar.le_refl Scalar.le_trans

theorem picks_greater : Picks (· ≥ ·) greater :=
  .of_ite (fun h => not_lt_nan h.symm) Scalar.le_of_lt
    (fun hx hy => Scalar.le_of_not_lt hy hx) Scalar.le_refl fun hxy hyz => Scalar.le_trans hyz hxy

end Lindenmayer.Scalar
