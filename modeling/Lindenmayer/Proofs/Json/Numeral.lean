import Lindenmayer.Json.Number
import Lindenmayer.Proofs.Json.Scanning

/-! Numerals that are written are read back, whatever follows them that cannot be a part of them. -/

namespace Lindenmayer.Json

theorem isDigit_of_mem_decimal {n : Nat} {c : Char} (h : c ∈ decimal n) : isDigit c = true :=
  Nat.isDigit_of_mem_toDigits (by decide) (by decide) h

theorem value_decimal (n : Nat) : value (decimal n) = n := Nat.ofDigitChars_ten_toDigits

theorem decimal_ne_nil (n : Nat) : decimal n ≠ [] := Nat.toDigits_ne_nil

theorem head?_decimal {n : Nat} (h : n ≠ 0) : (decimal n).head? ≠ some '0' := by
  induction n using Nat.strongRecOn with
  | ind n ih =>
    rw [decimal,Nat.toDigits_eq_if (by decide)]
    split
    · rename_i hlt
      have hall : ∀ m, m < 10 → m ≠ 0 → [Nat.digitChar m].head? ≠ some '0' := by decide
      exact hall n hlt h
    · rename_i hge
      have hh := ih (n/10) (by omega) (by omega)
      obtain ⟨c,cs,hc⟩ := List.exists_cons_of_ne_nil (decimal_ne_nil (n/10))
      rw [hc] at hh
      rw [← decimal,hc]
      exact hh

namespace Numeral

/-- The shape of all numerals that are written. -/
structure Written (n : Numeral) : Prop where
  whole_digits : ∀ c ∈ n.whole, isDigit c = true
  whole_ne_nil : n.whole ≠ []
  no_leading_zero : ∀ ds, n.whole = '0'::ds → ds = []
  fraction_digits : ∀ c ∈ n.fraction, isDigit c = true

theorem written_ofInt (n : Int) : (ofInt n).Written where
  whole_digits _ hc := isDigit_of_mem_decimal hc
  whole_ne_nil := decimal_ne_nil _
  no_leading_zero ds h := by
    by_cases hn : n.natAbs = 0
    · have hz : (ofInt n).whole = ['0'] := by rw [ofInt,hn]; rfl
      exact (List.cons.inj (hz.symm.trans h)).2.symm
    · exact absurd (congrArg List.head? h) (head?_decimal hn)
  fraction_digits _ hc := by simp [ofInt] at hc

/-- The end of the text, from the exponent on. -/
def afterFraction (n : Numeral) : List Char :=
  match n.exponent with
  | none => []
  | some e => textExponent e

/-- The end of the text, from the point on. -/
def afterWhole (n : Numeral) : List Char :=
  (if n.fraction.isEmpty then [] else '.'::n.fraction) ++ n.afterFraction

theorem text_eq (n : Numeral) :
    n.text = (if n.negative then ['-'] else []) ++ n.whole ++ n.afterWhole := by
  rw [text,afterWhole,← List.append_assoc]
  rfl

theorem Written.wholeText {n : Numeral} (hn : n.Written) : WholeText n.whole := by
  by_cases hzero : n.whole.head? = some '0'
  · obtain ⟨ds,hds⟩ := List.head?_eq_some_iff.1 hzero
    rw [hds,hn.no_leading_zero ds hds]
    exact .zero
  · exact .digits ⟨hn.whole_ne_nil,hn.whole_digits⟩ hzero

theorem Written.fractionText {n : Numeral} (hn : n.Written) :
    FractionText (if n.fraction.isEmpty then [] else '.'::n.fraction) := by
  by_cases hf : n.fraction = []
  · simpa [hf] using FractionText.none
  · simpa [hf] using FractionText.some ⟨hf,hn.fraction_digits⟩

theorem digits_decimal (n : Nat) : Digits (decimal n) :=
  ⟨decimal_ne_nil n,fun _ => isDigit_of_mem_decimal⟩

theorem textExponent_eq (e : Int) :
    textExponent e = 'e'::((if e < 0 then ['-'] else ['+']) ++ decimal e.natAbs) := by
  by_cases he : e < 0 <;> simp [textExponent,he]

theorem exponentText_afterFraction (n : Numeral) : ExponentText n.afterFraction := by
  unfold afterFraction
  cases n.exponent with
  | none => exact .none
  | some e =>
    show ExponentText (textExponent e)
    rw [textExponent_eq]
    refine .some (.inl rfl) ?_ (digits_decimal _)
    by_cases he : e < 0 <;> simp [he]

theorem scanExponent_afterFraction (n : Numeral) {r : List Char} (hr : Ends r) :
    scanExponent (n.afterFraction++r) = .ok (n.exponent,r) := by
  unfold afterFraction
  cases n.exponent with
  | none => exact scanExponent_nil hr
  | some e =>
    show scanExponent (textExponent e ++ r) = _
    rw [textExponent_eq]
    by_cases he : e < 0
    · rw [if_pos he,scanExponent_signed (.inl rfl) (by decide) (digits_decimal _) hr,
        value_decimal,if_pos (by decide)]
      congr 3
      omega
    · rw [if_neg he,scanExponent_signed (.inl rfl) (by decide) (digits_decimal _) hr,
        value_decimal,if_neg (by decide)]
      congr 3
      omega

theorem text_parts (n : Numeral) : n.text = (if n.negative then ['-'] else []) ++
    (n.whole ++ ((if n.fraction.isEmpty then [] else '.'::n.fraction) ++ n.afterFraction)) := by
  rw [text_eq,afterWhole,List.append_assoc]

theorem sign_mem (n : Numeral) : (if n.negative then ['-'] else []) ∈ [[],['-']] := by
  cases n.negative <;> decide

theorem numeralText_text {n : Numeral} (hn : n.Written) : NumeralText n.text := by
  rw [text_parts]
  exact .intro n.sign_mem hn.wholeText hn.fractionText n.exponentText_afterFraction

theorem scan_text {n : Numeral} (hn : n.Written) {r : List Char} (hr : Ends r) :
    scan (n.text++r) = .ok (n,r) := by
  have hsign : ((if n.negative then ['-'] else []) == ['-']) = n.negative := by
    cases n.negative <;> rfl
  have hfraction : (if n.fraction.isEmpty then [] else '.'::n.fraction).tail = n.fraction := by
    cases n.fraction <;> rfl
  rw [text_parts,scan_parts n.sign_mem hn.wholeText hn.fractionText n.exponentText_afterFraction hr
    (n.scanExponent_afterFraction hr),hsign,hfraction]

theorem text_cons {n : Numeral} (hn : n.Written) :
    ∃ c s, n.text = c::s ∧ (c = '-' ∨ isDigit c = true) := numeralText_cons (numeralText_text hn)

theorem integer?_ofInt (n : Nat) :
    (ofInt n).integer? = if n < UInt64.size then some (n : Int) else none := by
  have hneg : (ofInt n).negative = false := by simp [ofInt]
  have hwhole : value (ofInt n).whole = n := value_decimal n
  rw [integer?,hneg,hwhole]
  rfl

/-- An integer that 64 bits can hold is read as it was written, if it is not negative. -/
theorem number?_ofInt {n : Nat} (hn : n < UInt64.size) :
    (ofInt n).number? = some (.integer n) := by
  have hint : (ofInt n).isInteger = true := rfl
  rw [number?,hint,if_pos rfl,integer?_ofInt,if_pos hn]

theorem eq_of_number?_ofInt {n : Nat} {k : Int} (h : (ofInt n).number? = some (.integer k)) :
    k = n := by
  have hint : (ofInt n).isInteger = true := rfl
  by_cases hn : n < UInt64.size
  · rw [number?_ofInt hn] at h
    exact (Number.integer.inj (Option.some.inj h)).symm
  · rw [number?,hint,if_pos rfl,integer?_ofInt,if_neg hn] at h
    simp at h

end Numeral
end Lindenmayer.Json
