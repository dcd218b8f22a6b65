import Mathlib.Data.List.Forall2
import Lindenmayer.Proofs.Json.Syntax
import Lindenmayer.Proofs.Json.Reading

/-! What it means that a reader depends on the known fields of a record and on nothing else in the
text: not on their order, not on members with other names, not on blanks. -/

namespace Lindenmayer.Json

/-- The text of a key and the name it stands for. -/
structure KeyOf (k : List Char) (w : Word) : Prop where
  text : KeyText k
  word : Reader.run toWord k = .ok w

inductive ObjectOf (ms : List (List Char × List Char)) : List Char → Prop
  | intro {b₁ b₂ b₃ : List Char} (hb₁ : Blanks b₁) (hb₂ : Blanks b₂) (hb₃ : Blanks b₃) :
    ObjectOf ms (b₁ ++ objectText b₂ ms ++ b₃)

inductive ListOf (ts : List (List Char)) : List Char → Prop
  | intro {b₁ b₂ b₃ : List Char} (hb₁ : Blanks b₁) (hb₂ : Blanks b₂) (hb₃ : Blanks b₃) :
    ListOf ts (b₁ ++ listText b₂ ts ++ b₃)

/-- The fields of a record and their settings: a setting is a field with a value for it. -/
structure Schema (σ ι : Type) where
  /-- In the order of a list. -/
  names : List String
  required : List String
  initial : σ
  name : ι → String
  /-- The text is a value of the kind that the field takes, namely the one of the setting. -/
  Spells : List Char → ι → Prop
  put : ι → σ → σ

namespace Schema
variable {σ ι τ υ : Type} (S : Schema σ ι)

/-- The record before anything is read, with some fields replaced. -/
def replaced (is : List ι) : σ := is.foldl (fun s i => S.put i s) S.initial

/-- The members of an object of which exactly those are fields that give some settings. -/
inductive Holds : List (List Char × List Char) → List ι → Prop
  | nil : Holds [] []
  | known {k t : List Char} {i : ι} {ms : List (List Char × List Char)} {is : List ι}
    (hk : KeyOf k (S.name i).toList) (ht : S.Spells t i) (h : Holds ms is) :
    Holds ((k,t)::ms) (i::is)
  | other {k t : List Char} {w : Word} {ms : List (List Char × List Char)} {is : List ι}
    (hk : KeyOf k w) (hw : ∀ n ∈ S.names, w ≠ n.toList) (ht : WellFormed t) (h : Holds ms is) :
    Holds ((k,t)::ms) is

/-- A reader gives what `finish` makes of the record that a text stands for. -/
structure ReadBy (finish : σ → τ) (read : Reader τ) : Prop where
  /-- The order of the members does not count, nor do those that are no fields. -/
  object {t : List Char} {ms : List (List Char × List Char)} {is js : List ι} :
    ObjectOf ms t → S.Holds ms is → is.Perm js → (js.map S.name).Nodup →
    S.required ⊆ js.map S.name → read.run t = .ok (finish (S.replaced js))
  list {t : List Char} {ts : List (List Char)} {is : List ι} :
    ListOf ts t → List.Forall₂ S.Spells ts is → is.map S.name <+: S.names →
    S.required ⊆ is.map S.name → read.run t = .ok (finish (S.replaced is))
  /-- No object has a field twice. -/
  repeated {t : List Char} {ms : List (List Char × List Char)} {n : String}
    {m₁ m₂ : List Char × List Char} :
    ObjectOf ms t → (∀ m ∈ ms, KeyText m.1 ∧ WellFormed m.2) → n ∈ S.names →
    [m₁,m₂].Sublist ms → KeyOf m₁.1 n.toList → KeyOf m₂.1 n.toList → ∀ x, read.run t ≠ .ok x
  /-- No object lacks a field that is required. -/
  missing {t : List Char} {ms : List (List Char × List Char)} {n : String} :
    ObjectOf ms t → (∀ m ∈ ms, KeyText m.1 ∧ WellFormed m.2) → n ∈ S.required →
    (∀ m ∈ ms, ¬ KeyOf m.1 n.toList) → ∀ x, read.run t ≠ .ok x
  /-- No list ends before a field that is required. -/
  short {t : List Char} {ts : List (List Char)} {is : List ι} :
    ListOf ts t → List.Forall₂ S.Spells ts is → is.map S.name <+: S.names →
    ¬ S.required ⊆ is.map S.name → ∀ x, read.run t ≠ .ok x

variable {S} in
theorem ReadBy.map {finish : σ → τ} {read : Reader τ} (h : S.ReadBy finish read) (g : τ → υ) :
    S.ReadBy (fun s => g (finish s)) (fun v => (read v).map g) := by
  have hnever : ∀ {t}, (∀ x, read.run t ≠ .ok x) →
      ∀ y, Reader.run (fun v => (read v).map g) t ≠ .ok y := by
    intro t ht y hy
    rw [Reader.run_map] at hy
    cases hx : read.run t with
    | error => simp [hx,Except.map] at hy
    | ok x => exact ht x hx
  constructor
  case object =>
    intro t ms is js ht hms hperm hnodup hrequired
    rw [Reader.run_map,h.object ht hms hperm hnodup hrequired]
    rfl
  case list =>
    intro t ts is ht hts hnames hrequired
    rw [Reader.run_map,h.list ht hts hnames hrequired]
    rfl
  case repeated => exact fun ht hms hn hsub h₁ h₂ => hnever (h.repeated ht hms hn hsub h₁ h₂)
  case missing => exact fun ht hms hn hkeys => hnever (h.missing ht hms hn hkeys)
  case short => exact fun ht hts hnames hrequired => hnever (h.short ht hts hnames hrequired)

end Schema

end Lindenmayer.Json
