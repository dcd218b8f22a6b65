import Lindenmayer.Proofs.LSystem.Parallel
import Mathlib.Data.Matrix.Mul
import Mathlib.Data.Fintype.EquivFin

/-! How words grow. The numbers of the symbols in a word make a vector, and each generation
multiplies it by one matrix, in which stands how often each symbol is in what replaces each other
one. -/

namespace Lindenmayer

theorem finite_symbol : Finite Symbol :=
  Finite.of_injective (fun c : Symbol => (⟨c.toNat,c.val.toNat_lt⟩ : Fin (2^32)))
    fun _ _ h => Char.toNat_inj.1 (Fin.mk.inj h)

/-- Only where sums over all symbols are meant, as it would get into the way of deciding statements
on the symbols of a word. -/
noncomputable abbrev fintypeSymbol : Fintype Symbol := @Fintype.ofFinite Symbol finite_symbol

attribute [local instance] fintypeSymbol

def Word.counts (w : Word) : Symbol → ℕ := fun c => w.count c

@[simp] theorem Word.counts_nil : Word.counts [] = 0 := rfl
theorem Word.counts_cons (x : Symbol) (w : Word) :
    Word.counts (x::w) = Pi.single x 1+Word.counts w := by
  funext c
  by_cases h : c = x
  · subst h
    simp [Word.counts,Nat.add_comm]
  · simp [Word.counts,h,Ne.symm h]
theorem Word.counts_append (v w : Word) :
    Word.counts (v++w) = Word.counts v+Word.counts w := by
  funext c
  exact List.count_append

namespace Grammar
open Matrix

/-- How often the column's symbol is in what takes the place of the row's symbol. -/
def growth (g : Grammar) : Matrix Symbol Symbol ℕ :=
  .of fun d c => (firstMatch g.rules d).count c

theorem counts_derive (g : Grammar) (w : Word) :
    Word.counts (g.derive w) = Word.counts w ᵥ* g.growth := by
  induction w with
  | nil => exact (Matrix.zero_vecMul g.growth).symm
  | cons x w ih =>
    have hrow : Word.counts (g.replacement x) = g.growth.row x := by
      rw [replacement_eq_firstMatch]
      rfl
    rw [derive_cons,Word.counts_append,Word.counts_cons,Matrix.add_vecMul,
      Matrix.single_one_vecMul,ih,hrow]

theorem counts_expand (g : Grammar) (w : Word) (n : ℕ) :
    Word.counts (g.expand w n) = Word.counts w ᵥ* g.growth^n := by
  induction n with
  | zero => rw [expand,pow_zero,Matrix.vecMul_one]
  | succ n ih => rw [expand_succ,counts_derive,ih,Matrix.vecMul_vecMul,pow_succ]

theorem count_expand (g : Grammar) (w : Word) (n : ℕ) (c : Symbol) :
    (g.expand w n).count c = ∑ d, w.count d*(g.growth^n) d c :=
  congrFun (g.counts_expand w n) c

end Grammar

theorem LSystem.count_generate (w : Word) (g : Grammar) (n : ℕ) (c : Symbol) :
    ((new w g).generate n).current.count c = ∑ d, w.count d*(g.growth^n) d c := by
  rw [current_generate]
  exact g.count_expand w n c

end Lindenmayer
