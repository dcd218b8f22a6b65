import Mathlib.Data.List.Nodup
import Mathlib.Data.List.Perm.Basic
import Lindenmayer.Proofs.Json.Acceptance
import Lindenmayer.Proofs.Json.Schema

/-! Records are read by their fields: what is read as a record is the record at the beginning with
the fields replaced that the text gives. -/

namespace Lindenmayer.Json

theorem ObjectOf.readsAs {ms : List (List Char × List Char)} {t : List Char} (ht : ObjectOf ms t)
    {us : List (Option Word × Json)} (hms : List.Forall₂ MemberReadsAs ms us) :
    ReadsAs t (.object us none) := by
  obtain ⟨hb₁,hb₂,hb₃⟩ := ht
  exact (readsAs_object hb₂ hms).spaced hb₁ hb₃

theorem ListOf.readsAs {ts : List (List Char)} {t : List Char} (ht : ListOf ts t)
    {vs : List Json} (hts : List.Forall₂ ReadsAs ts vs) : ReadsAs t (.list vs none) := by
  obtain ⟨hb₁,hb₂,hb₃⟩ := ht
  exact (readsAs_list hb₂ hts).spaced hb₁ hb₃

theorem KeyReadsAs.unique {k : List Char} {w w' : Option Word} (h : KeyReadsAs k w)
    (h' : KeyReadsAs k w') : w = w' := by
  have hnull : ReadsAs ['n','u','l','l'] .null :=
    readsAs_of_next? (t := .plain .null) rfl (fun _ => rfl) fun _ _ => rfl
  have hobject : ∀ {w}, KeyReadsAs k w →
      Document.ofText (objectText [] [(k,['n','u','l','l'])]) = ⟨.object [(w,.null)] none,false⟩ :=
    fun h => (readsAs_object .nil (.cons ⟨h,hnull⟩ .nil)).ofText
  simpa using (hobject h).symm.trans (hobject h')

theorem KeyText.keyOf_iff {k : List Char} (hk : KeyText k) {w : Option Word} {n : Word}
    (hw : KeyReadsAs k w) : KeyOf k n ↔ w = some n := by
  obtain ⟨u,hu,htext⟩ := hk.keyReadsAs
  obtain rfl := hw.unique hu
  have hrun : Reader.run toWord k = .ok n ↔ w = some n := by
    rw [Reader.run_eq_ok,htext]
    cases w with
    | none => simp [toWord,refuse,Json.found,malformed,bind,Except.bind]
    | some w => simp [toWord]
  exact ⟨fun h => hrun.1 h.word,fun h => ⟨hk,hrun.2 h⟩⟩

theorem KeyOf.keyReadsAs {k : List Char} {w : Word} (hk : KeyOf k w) : KeyReadsAs k (some w) := by
  obtain ⟨u,hu,-⟩ := hk.text.keyReadsAs
  exact (hk.text.keyOf_iff hu).1 hk ▸ hu

theorem sublist_of_forall₂ {α β : Type} {R : α → β → Prop} {xs xs' : List α} {ys : List β}
    (hsub : xs'.Sublist xs) (h : List.Forall₂ R xs ys) :
    ∃ ys', List.Forall₂ R xs' ys' ∧ ys'.Sublist ys := by
  induction hsub generalizing ys with
  | slnil => exact ⟨[],.nil,List.nil_sublist ys⟩
  | cons x _ ih =>
    cases h with
    | cons _ h =>
      obtain ⟨ys',h',hsub⟩ := ih h
      exact ⟨ys',h',hsub.cons _⟩
  | cons_cons x _ ih =>
    cases h with
    | cons hx h =>
      obtain ⟨ys',h',hsub⟩ := ih h
      exact ⟨_::ys',.cons hx h',hsub.cons_cons _⟩

namespace Record
variable {σ ι : Type} {r : Record σ} {S : Schema σ ι}

/-- A record has the fields of a schema, and takes for them what the schema says. -/
structure Follows (r : Record σ) (S : Schema σ ι) : Prop where
  names : r.fields.map Field.name = S.names
  nodup : S.names.Nodup
  required : (r.fields.filter Field.required).map Field.name = S.required
  initial : r.initial = S.initial
  reads {t : List Char} {i : ι} : S.Spells t i → ∃ f ∈ r.fields, f.name = S.name i ∧
    ∃ v, ReadsAs t v ∧ ∀ s, f.set v s = .ok (S.put i s)
  comm {i j : ι} : S.name i ≠ S.name j → ∀ s, S.put i (S.put j s) = S.put j (S.put i s)

/-- The fields that the members are, in their order. -/
def known (r : Record σ) (us : List (Option Word × Json)) : List String :=
  us.filterMap fun u => u.1.bind fun w => (r.find? w).map Field.name

theorem known_cons (u : Option Word × Json) (us : List (Option Word × Json)) :
    r.known (u::us) = r.known [u] ++ r.known us :=
  List.filterMap_append (l := [u])

theorem readMember_ok {u : Option Word × Json} {seen seen' : List String} {s s' : σ}
    (h : r.readMember seen s u = .ok (seen',s')) :
    seen' = (r.known [u]).reverse ++ seen ∧ (seen.Nodup → seen'.Nodup) := by
  obtain ⟨w,v⟩ := u
  cases w with
  | none => simp [readMember,keyText,malformed,bind,Except.bind] at h
  | some w =>
    obtain ⟨_,hkey,h⟩ := bind_eq_ok.1 h
    obtain rfl := Except.ok.inj hkey
    cases hf : r.find? w with
    | none =>
      rw [hf] at h
      obtain ⟨_,-,h⟩ := bind_eq_ok.1 h
      obtain ⟨rfl,-⟩ := Prod.mk.inj (Except.ok.inj h)
      simp [known,hf]
    | some f =>
      rw [hf] at h
      by_cases hseen : f.name ∈ seen
      · simp [hseen,bind,Except.bind,throw,throwThe,MonadExceptOf.throw] at h
      · simp only [hseen,if_false] at h
        obtain ⟨_,-,h⟩ := bind_eq_ok.1 h
        obtain ⟨rfl,-⟩ := Prod.mk.inj (Except.ok.inj h)
        exact ⟨by simp [known,hf],fun hnodup => hnodup.cons hseen⟩

/-- What has been seen after some members are their fields, and none of them twice. -/
theorem seen_of_readMembers {us : List (Option Word × Json)} {seen seen' : List String} {s s' : σ}
    (h : r.readMembers seen s us = .ok (seen',s')) :
    seen' = (r.known us).reverse ++ seen ∧ (seen.Nodup → seen'.Nodup) := by
  induction us generalizing seen s with
  | nil =>
    obtain ⟨rfl,-⟩ := Prod.mk.inj (Except.ok.inj h)
    exact ⟨rfl,id⟩
  | cons u us ih =>
    obtain ⟨⟨seen₁,s₁⟩,hmember,hrest⟩ := bind_eq_ok.1 h
    obtain ⟨rfl,hnodup⟩ := readMember_ok hmember
    obtain ⟨rfl,hnodup'⟩ := ih hrest
    exact ⟨by rw [r.known_cons u us,List.reverse_append,List.append_assoc],
      fun h => hnodup' (hnodup h)⟩

theorem read_object_ok {us : List (Option Word × Json)} {s : σ}
    (h : r.read (.object us none) = .ok s) :
    ∃ seen, r.readMembers [] r.initial us = .ok (seen,s) ∧ r.missing? seen = none := by
  obtain ⟨p,hms,h⟩ := bind_eq_ok.1 h
  obtain ⟨_,-,h⟩ := bind_eq_ok.1 h
  cases hmissing : r.missing? p.1 with
  | some f => simp [hmissing,throw,throwThe,MonadExceptOf.throw] at h
  | none =>
    rw [hmissing] at h
    obtain rfl := Except.ok.inj h
    exact ⟨p.1,hms,hmissing⟩

theorem readItems_nil_iff {fields : List (Field σ)} {n : Nat} {s s' : σ} :
    r.readItems none n s fields [] = .ok s' ↔ fields.any Field.required = false ∧ s = s' := by
  cases fields with
  | nil => simp [readItems,ended,bind,Except.bind,pure,Except.pure]
  | cons f fields =>
    by_cases hrequired : (f::fields).any Field.required = true
    · simp [readItems,ended,hrequired,bind,Except.bind,throw,throwThe,MonadExceptOf.throw]
    · simp [readItems,ended,hrequired,bind,Except.bind,pure,Except.pure]

namespace Follows
variable (h : r.Follows S)
include h

theorem eq_of_name {f g : Field σ} (hf : f ∈ r.fields) (hg : g ∈ r.fields)
    (hname : f.name = g.name) : f = g :=
  List.inj_on_of_nodup_map (h.names ▸ h.nodup) hf hg hname

theorem find?_of_mem {f : Field σ} (hf : f ∈ r.fields) :
    (r.fields.find? fun g => g.name == f.name) = some f := by
  cases hfind : r.fields.find? fun g => g.name == f.name with
  | none => exact absurd (List.find?_eq_none.1 hfind f hf) (by simp)
  | some g =>
    have hname : g.name = f.name := by simpa using List.find?_some hfind
    rw [h.eq_of_name (List.mem_of_find?_eq_some hfind) hf hname]

theorem find?_of_other {w : Word} (hw : ∀ n ∈ S.names, w ≠ n.toList) : r.find? w = none := by
  refine List.find?_eq_none.2 fun f hf => ?_
  have hname : f.name ∈ S.names := h.names ▸ List.mem_map_of_mem hf
  simpa using (hw f.name hname).symm

theorem required_subset : S.required ⊆ S.names := by
  rw [← h.required,← h.names]
  exact List.map_subset _ (List.filter_subset_self _)

theorem missing?_eq_none_iff (seen : List String) :
    r.missing? seen = none ↔ S.required ⊆ seen := by
  rw [missing?,List.find?_eq_none,← h.required]
  constructor
  · intro hall n hn
    obtain ⟨f,hf,rfl⟩ := List.mem_map.1 hn
    have hmissing := hall f (List.mem_of_mem_filter hf)
    simpa [(List.mem_filter.1 hf).2] using hmissing
  · intro hsub f hf
    by_cases hrequired : f.required = true
    · have hseen := hsub (List.mem_map_of_mem (List.mem_filter.2 ⟨hf,hrequired⟩))
      simp [hseen]
    · simp [hrequired]

theorem readMembers_holds {ms : List (List Char × List Char)} {is : List ι}
    (hms : S.Holds ms is) : ∃ us, List.Forall₂ MemberReadsAs ms us ∧
      ∀ {seen s}, (is.map S.name ++ seen).Nodup → r.readMembers seen s us =
        .ok ((is.map S.name).reverse ++ seen,is.foldl (fun s i => S.put i s) s) := by
  induction hms with
  | nil => exact ⟨[],.nil,fun _ => rfl⟩
  | @known k t i ms is hk ht _ ih =>
    obtain ⟨us,hus,hread⟩ := ih
    obtain ⟨f,hf,hname,v,hv,hset⟩ := h.reads ht
    refine ⟨(some (S.name i).toList,v)::us,.cons ⟨hk.keyReadsAs,hv⟩ hus,fun {seen s} hnodup => ?_⟩
    have hfind := h.find?_of_mem hf
    have hmiddle : (is.map S.name ++ S.name i::seen).Nodup := List.nodup_middle.2 hnodup
    have hseen : f.name ∉ seen := by
      rw [hname]
      exact fun hmem => (List.nodup_cons.1 hnodup).1 (List.mem_append_right _ hmem)
    rw [hname] at hfind
    rw [readMembers_field_ok hfind hseen (hset s),hname,hread hmiddle]
    simp
  | @other k t w ms is hk hw ht _ ih =>
    obtain ⟨us,hus,hread⟩ := ih
    obtain ⟨v,hv,hskip⟩ := ht.readsAs
    refine ⟨(some w,v)::us,.cons ⟨hk.keyReadsAs,hv⟩ hus,fun hnodup => ?_⟩
    rw [readMembers_unknown (h.find?_of_other hw) hskip]
    exact hread hnodup

theorem readItems_spelled {ts : List (List Char)} {is : List ι} (hts : List.Forall₂ S.Spells ts is)
    {fields : List (Field σ)} (hsub : fields ⊆ r.fields)
    (hnames : is.map S.name <+: fields.map Field.name) : ∃ vs, List.Forall₂ ReadsAs ts vs ∧
      ∀ n s, r.readItems none n s fields vs = r.readItems none (n+is.length)
        (is.foldl (fun s i => S.put i s) s) (fields.drop is.length) [] := by
  induction hts generalizing fields with
  | nil => exact ⟨[],.nil,fun _ _ => rfl⟩
  | @cons t i ts is ht _ ih =>
    cases fields with
    | nil => simp at hnames
    | cons f fields =>
      obtain ⟨hname,hrest⟩ := List.cons_prefix_cons.1 hnames
      obtain ⟨vs,hvs,hread⟩ := ih (List.subset_of_cons_subset hsub) hrest
      obtain ⟨g,hg,hgname,v,hv,hset⟩ := h.reads ht
      obtain rfl : f = g := h.eq_of_name (hsub (.head _)) hg (hname.symm.trans hgname.symm)
      refine ⟨v::vs,.cons hv hvs,fun n s => ?_⟩
      have hitem : r.readItems none n s (f::fields) (v::vs) =
          r.readItems none (n+1) (S.put i s) fields vs := by
        rw [readItems,hset]
        rfl
      rw [hitem,hread]
      simp [Nat.add_comm,Nat.add_left_comm]

theorem any_drop_eq_false_iff {ns : List String} (hns : ns <+: S.names) :
    (r.fields.drop ns.length).any Field.required = false ↔ S.required ⊆ ns := by
  have htake : (r.fields.take ns.length).map Field.name = ns := by
    rw [List.map_take,h.names]
    exact (List.prefix_iff_eq_take.1 hns).symm
  rw [← h.required,List.any_eq_false]
  constructor
  · intro hall n hn
    obtain ⟨f,hf,rfl⟩ := List.mem_map.1 hn
    obtain ⟨hf,hrequired⟩ := List.mem_filter.1 hf
    rw [← List.take_append_drop ns.length r.fields] at hf
    rcases List.mem_append.1 hf with hfront | hrest
    · exact htake ▸ List.mem_map_of_mem hfront
    · exact absurd hrequired (hall f hrest)
  · intro hsub f hf hrequired
    have hfront : f.name ∈ S.names.take ns.length := by
      rw [← List.prefix_iff_eq_take.1 hns]
      exact hsub (List.mem_map_of_mem (List.mem_filter.2 ⟨List.mem_of_mem_drop hf,hrequired⟩))
    have hrest : f.name ∈ S.names.drop ns.length := by
      rw [← h.names,← List.map_drop]
      exact List.mem_map_of_mem hf
    exact List.disjoint_take_drop h.nodup (Nat.le_refl _) hfront hrest

theorem replaced_perm {is js : List ι} (hperm : is.Perm js) (hnodup : (is.map S.name).Nodup) :
    S.replaced is = S.replaced js := by
  refine hperm.foldl_eq' (fun i hi j hj s => ?_) S.initial
  by_cases hname : S.name i = S.name j
  · rw [List.inj_on_of_nodup_map hnodup hi hj hname]
  · exact h.comm (Ne.symm hname) s

theorem read_holds {us : List (Option Word × Json)} {is : List ι}
    (hread : ∀ {seen s}, (is.map S.name ++ seen).Nodup → r.readMembers seen s us =
      .ok ((is.map S.name).reverse ++ seen,is.foldl (fun s i => S.put i s) s))
    (hnodup : (is.map S.name).Nodup) (hrequired : S.required ⊆ is.map S.name) :
    r.read (.object us none) = .ok (S.replaced is) := by
  have hmissing : r.missing? ((is.map S.name).reverse ++ []) = none := by
    rw [h.missing?_eq_none_iff]
    simpa using hrequired
  rw [read,hread (by simpa using hnodup)]
  simp only [bind,Except.bind,ended,hmissing,h.initial]
  rfl

theorem mem_known_iff {m : List Char × List Char} {u : Option Word × Json} (hm : MemberReadsAs m u)
    (hkey : KeyText m.1) {n : String} (hn : n ∈ S.names) :
    n ∈ r.known [u] ↔ KeyOf m.1 n.toList := by
  rw [hkey.keyOf_iff hm.1]
  constructor
  · intro hknown
    obtain ⟨_,hu,hname⟩ := List.mem_filterMap.1 hknown
    obtain rfl := List.mem_singleton.1 hu
    obtain ⟨w,hw,hfound⟩ := Option.bind_eq_some_iff.1 hname
    obtain ⟨f,hf,rfl⟩ := Option.map_eq_some_iff.1 hfound
    have hfname : f.name.toList = w := by simpa using List.find?_some hf
    rw [hw,hfname]
  · intro hu
    obtain ⟨f,hf,rfl⟩ := List.mem_map.1 (h.names ▸ hn)
    have hfind : r.find? f.name.toList = some f := (r.find?_toList _).trans (h.find?_of_mem hf)
    simp [known,hu,hfind]

theorem sublist_known {m₁ m₂ : List Char × List Char} {us : List (Option Word × Json)}
    (hus : List.Forall₂ MemberReadsAs [m₁,m₂] us) {n : String} (hn : n ∈ S.names)
    (h₁ : KeyOf m₁.1 n.toList) (h₂ : KeyOf m₂.1 n.toList) : [n,n].Sublist (r.known us) := by
  cases hus with
  | cons hm₁ hrest =>
    cases hrest with
    | cons hm₂ hnil =>
      cases hnil
      have hfirst := (h.mem_known_iff hm₁ h₁.text hn).2 h₁
      have hsecond := (h.mem_known_iff hm₂ h₂.text hn).2 h₂
      rw [known_cons]
      exact (List.singleton_sublist.2 hfirst).append (List.singleton_sublist.2 hsecond)

theorem not_mem_known {ms : List (List Char × List Char)} {us : List (Option Word × Json)}
    (hus : List.Forall₂ MemberReadsAs ms us) (hkeys : ∀ m ∈ ms, KeyText m.1) {n : String}
    (hn : n ∈ S.names) (hms : ∀ m ∈ ms, ¬ KeyOf m.1 n.toList) : n ∉ r.known us := by
  induction hus with
  | nil => exact List.not_mem_nil
  | @cons m u ms us hm _ ih =>
    rw [known_cons,List.mem_append,h.mem_known_iff hm (hkeys m (.head _)) hn]
    exact not_or.2 ⟨hms m (.head _),
      ih (fun m hm => hkeys m (.tail _ hm)) fun m hm => hms m (.tail _ hm)⟩

/-- In an object that is accepted no field stands twice, and all that are required stand there. -/
theorem known_of_run {t : List Char} {ms : List (List Char × List Char)} {s : σ}
    (ht : ObjectOf ms t) (hms : ∀ m ∈ ms, KeyText m.1 ∧ WellFormed m.2)
    (hs : Reader.run r.read t = .ok s) : ∃ us, List.Forall₂ MemberReadsAs ms us ∧
      (r.known us).Nodup ∧ S.required ⊆ r.known us := by
  obtain ⟨us,hus⟩ := exists_members fun m hm =>
    ⟨(hms m hm).1,(hms m hm).2.readsAs.imp fun _ h => h.1⟩
  rw [(ht.readsAs hus).run] at hs
  obtain ⟨seen,hread,hmissing⟩ := read_object_ok hs
  obtain ⟨rfl,hnodup⟩ := seen_of_readMembers hread
  have hrequired := (h.missing?_eq_none_iff _).1 hmissing
  exact ⟨us,hus,by simpa using hnodup List.nodup_nil,by simpa using hrequired⟩

/-- Reading a record is reading its fields. -/
theorem readBy : S.ReadBy id r.read := by
  constructor
  case object =>
    intro t ms is js ht hms hperm hnodup hrequired
    have hnames := hperm.map S.name
    obtain ⟨us,hus,hread⟩ := h.readMembers_holds hms
    rw [(ht.readsAs hus).run,h.read_holds hread (hnames.nodup_iff.2 hnodup)
      fun n hn => hnames.mem_iff.2 (hrequired hn),
      h.replaced_perm hperm (hnames.nodup_iff.2 hnodup)]
    rfl
  case list =>
    intro t ts is ht hts hnames hrequired
    obtain ⟨vs,hvs,hread⟩ := h.readItems_spelled hts (List.Subset.refl _) (h.names ▸ hnames)
    have hdrop := (h.any_drop_eq_false_iff hnames).2 hrequired
    rw [List.length_map] at hdrop
    rw [(ht.readsAs hvs).run,read,hread,h.initial]
    exact readItems_nil_iff.2 ⟨hdrop,rfl⟩
  case repeated =>
    intro t ms n m₁ m₂ ht hms hn hsub h₁ h₂ x hx
    obtain ⟨us,hus,hnodup,-⟩ := h.known_of_run ht hms hx
    obtain ⟨us',hus',hsub'⟩ := sublist_of_forall₂ hsub hus
    have htwice : [n,n].Sublist (r.known us) :=
      (h.sublist_known hus' hn h₁ h₂).trans (hsub'.filterMap _)
    exact List.nodup_iff_sublist.1 hnodup n htwice
  case missing =>
    intro t ms n ht hms hn hkeys x hx
    obtain ⟨us,hus,-,hrequired⟩ := h.known_of_run ht hms hx
    have hname := h.required_subset hn
    exact h.not_mem_known hus (fun m hm => (hms m hm).1) hname hkeys (hrequired hn)
  case short =>
    intro t ts is ht hts hnames hrequired x hx
    obtain ⟨vs,hvs,hread⟩ := h.readItems_spelled hts (List.Subset.refl _) (h.names ▸ hnames)
    rw [(ht.readsAs hvs).run,read,hread] at hx
    have hdrop := (readItems_nil_iff.1 hx).1
    rw [← List.length_map (f := S.name)] at hdrop
    exact hrequired ((h.any_drop_eq_false_iff hnames).1 hdrop)

end Follows
end Record
end Lindenmayer.Json
