import Lindenmayer.Canvas.Basic
import Lindenmayer.Word
import Mathlib.Data.List.Induction

/-! Opening and closing brackets, in words and in drawings. A closing bracket takes the last opening
one that is still open; where there is none it is a stray one. -/

namespace Lindenmayer

inductive Bracket
  | opening
  | closing
deriving DecidableEq

namespace Bracket

def ofSymbol? : Symbol → Option Bracket
  | '[' => some .opening
  | ']' => some .closing
  | _ => none

/-- A save opens what a restore closes. -/
def ofOp? : DrawOp → Option Bracket
  | .save => some .opening
  | .restore => some .closing
  | _ => none

def symbol : Bracket → Symbol
  | .opening => '['
  | .closing => ']'

def op : Bracket → DrawOp
  | .opening => .save
  | .closing => .restore

theorem ofSymbol?_eq_none_iff {c : Symbol} : ofSymbol? c = none ↔ c ≠ '[' ∧ c ≠ ']' := by
  unfold ofSymbol?; split <;> simp_all
theorem ofSymbol?_eq_some_iff {c : Symbol} {b : Bracket} : ofSymbol? c = some b ↔ c = b.symbol := by
  cases b <;> unfold ofSymbol? <;> split <;> simp_all [symbol]
theorem ofOp?_eq_some_iff {o : DrawOp} {b : Bracket} : ofOp? o = some b ↔ o = b.op := by
  cases b <;> cases o <;> simp [ofOp?,op]

theorem count_filterMap {α : Type} [DecidableEq α] {find? : α → Option Bracket} {b : Bracket}
    {x : α} (h : ∀ y, find? y = some b ↔ y = x) (ys : List α) :
    (ys.filterMap find?).count b = ys.count x := by
  induction ys with
  | nil => rfl
  | cons y ys ih =>
    by_cases hy : y = x
    · simp [hy,(h x).2 rfl,ih]
    · have hn : find? y ≠ some b := fun he => hy ((h y).1 he)
      cases hf : find? y with
      | none => simp [hf,hy,ih]
      | some a =>
        have ha : a ≠ b := fun he => hn (he ▸ hf)
        simp [hf,hy,ha,ih]

end Bracket

/-- What is known of the brackets read so far. -/
structure Tally where
  /-- Closing brackets without a partner. -/
  stray : Nat
  /-- Opening brackets not closed yet. -/
  opened : Nat
deriving DecidableEq

namespace Tally

def zero : Tally := ⟨0,0⟩
@[simp] theorem stray_zero : zero.stray = 0 := rfl
@[simp] theorem opened_zero : zero.opened = 0 := rfl

def read (t : Tally) : Bracket → Tally
  | .opening => ⟨t.stray,t.opened+1⟩
  | .closing => if t.opened = 0 then ⟨t.stray+1,0⟩ else ⟨t.stray,t.opened-1⟩

def readAll (t : Tally) (bs : List Bracket) : Tally := bs.foldl read t

@[simp] theorem readAll_nil (t : Tally) : t.readAll [] = t := rfl
@[simp] theorem readAll_cons (t : Tally) (b : Bracket) (bs : List Bracket) :
    t.readAll (b::bs) = (t.read b).readAll bs := rfl
@[simp] theorem readAll_append (t : Tally) (as bs : List Bracket) :
    t.readAll (as++bs) = (t.readAll as).readAll bs := by simp [readAll]

theorem stray_le_stray_read (t : Tally) (b : Bracket) : t.stray ≤ (t.read b).stray := by
  cases b with
  | opening => exact Nat.le_refl _
  | closing => simp only [read]; split <;> simp

theorem stray_le_stray_readAll (t : Tally) (bs : List Bracket) :
    t.stray ≤ (t.readAll bs).stray := by
  induction bs generalizing t with
  | nil => exact Nat.le_refl _
  | cons b bs ih => exact Nat.le_trans (stray_le_stray_read t b) (ih (t.read b))

theorem count_readAll (t : Tally) (bs : List Bracket) :
    (t.readAll bs).opened + bs.count .closing + t.stray =
      t.opened + bs.count .opening + (t.readAll bs).stray := by
  induction bs generalizing t with
  | nil => simp
  | cons b bs ih =>
    have hh := ih (t.read b)
    cases b with
    | opening =>
      simp only [read] at hh
      simp [read]
      omega
    | closing =>
      by_cases h : t.opened = 0 <;> simp [read,h] at hh ⊢ <;> omega

/-- Brackets read later close what was open before with those that would be stray alone. -/
theorem readAll_eq (t : Tally) (bs : List Bracket) :
    t.readAll bs = ⟨t.stray+((zero.readAll bs).stray-t.opened),
      (zero.readAll bs).opened+(t.opened-(zero.readAll bs).stray)⟩ := by
  induction bs using List.reverseRecOn with
  | nil => simp
  | append_singleton bs b ih =>
    rw [readAll_append,readAll_append,ih]
    generalize zero.readAll bs = s
    cases b with
    | opening => simp [read]; omega
    | closing =>
      by_cases hs : s.opened = 0
      · by_cases ht : t.opened ≤ s.stray
        · have hz : t.opened-s.stray = 0 := by omega
          simp [read,hs,hz]; omega
        · have hz : ¬ t.opened-s.stray = 0 := by omega
          simp [read,hs,hz]; omega
      · simp [read,hs]; omega

@[simp] theorem readAll_closings (n : Nat) :
    zero.readAll (List.replicate n .closing) = ⟨n,0⟩ := by
  induction n with
  | zero => rfl
  | succ n ih => rw [List.replicate_succ',readAll_append,ih]; rfl

/-- Nothing is stray iff no beginning has more closing brackets than opening ones. -/
theorem stray_readAll_zero_iff (bs : List Bracket) :
    (zero.readAll bs).stray = 0 ↔ ∀ as, as <+: bs → as.count .closing ≤ as.count .opening := by
  constructor
  · rintro h as ⟨cs,rfl⟩
    have hle := stray_le_stray_readAll (zero.readAll as) cs
    have hc := count_readAll zero as
    rw [readAll_append] at h
    simp only [stray_zero,opened_zero] at hc
    omega
  · intro h
    -- Backwards, as the last bracket alone can be stray when the ones before it are not.
    induction bs using List.reverseRecOn with
    | nil => rfl
    | append_singleton bs b ih =>
      have hbs := ih fun as hp => h as (hp.trans (List.prefix_append bs [b]))
      have hc := count_readAll zero bs
      rw [readAll_append]
      cases b with
      | opening => simpa [read] using hbs
      | closing =>
        have hall := h (bs++[.closing]) (List.prefix_refl _)
        have hopen : (zero.readAll bs).opened ≠ 0 := by
          simp at hall hc
          omega
        simpa [read,hopen] using hbs

end Tally

namespace Word

def brackets (w : Word) : List Bracket := w.filterMap Bracket.ofSymbol?

def tally (w : Word) : Tally := Tally.zero.readAll (brackets w)

@[simp] theorem brackets_nil : brackets [] = [] := rfl
@[simp] theorem brackets_append (v w : Word) : brackets (v++w) = brackets v ++ brackets w := by
  simp [brackets]
@[simp] theorem brackets_opening (w : Word) : brackets ('['::w) = .opening::brackets w := rfl
@[simp] theorem brackets_closing (w : Word) : brackets (']'::w) = .closing::brackets w := rfl
theorem brackets_cons_of_none {c : Symbol} (h : Bracket.ofSymbol? c = none) (w : Word) :
    brackets (c::w) = brackets w := by simp [brackets,h]

theorem tally_append (v w : Word) : tally (v++w) = (tally v).readAll (brackets w) := by
  simp [tally]

theorem count_brackets (w : Word) (b : Bracket) : (brackets w).count b = w.count b.symbol :=
  Bracket.count_filterMap (fun _ => Bracket.ofSymbol?_eq_some_iff) w

theorem stray_tally_zero_iff (w : Word) :
    (tally w).stray = 0 ↔ ∀ v, v <+: w → v.count ']' ≤ v.count '[' := by
  rw [tally,Tally.stray_readAll_zero_iff]
  constructor
  · intro h v hv
    have hh := h (brackets v) (hv.filterMap _)
    rwa [count_brackets,count_brackets] at hh
  · intro h as has
    obtain ⟨v,hv,rfl⟩ := List.prefix_filterMap_iff.1 has
    have hh := h v hv
    rw [← brackets,count_brackets,count_brackets]
    exact hh

end Word
end Lindenmayer
