import Lindenmayer.Proofs.Json.Fields
import Lindenmayer.Proofs.Json.Thorough

/-! One field of a record that is accepted. What the field holds was read from its own text alone,
and every text that is read alike may take the place of that one. A text without the field leaves it
as it was. -/

namespace Lindenmayer.Json

/-! ### The text of a tree -/

theorem exists_trees {ms : List (List Char × List Char)}
    (hms : ∀ m ∈ ms, KeyText m.1 ∧ WellFormed m.2) : ∃ us, List.Forall₂ MemberReadsAs ms us :=
  exists_members fun m hm => ⟨(hms m hm).1,(hms m hm).2.readsAs.imp fun _ h => h.1⟩

/-- How a text that gives some tree is written, if the tree has parts. -/
inductive Form (t : List Char) : Json → Prop
  | object {ms : List (List Char × List Char)} {us : List (Option Word × Json)}
    (ht : ObjectOf ms t) (hms : ∀ m ∈ ms, KeyText m.1 ∧ WellFormed m.2)
    (hus : List.Forall₂ MemberReadsAs ms us) : Form t (.object us none)
  | list {ts : List (List Char)} {vs : List Json} (ht : ListOf ts t) (hts : ∀ s ∈ ts, WellFormed s)
    (hvs : List.Forall₂ ReadsAs ts vs) : Form t (.list vs none)
  | single {v : Json} (hobject : ∀ us end?, v ≠ .object us end?)
    (hlist : ∀ vs end?, v ≠ .list vs end?) : Form t v

theorem Form.spaced {b t b' : List Char} {v : Json} (hb : Blanks b) (h : Form t v)
    (hb' : Blanks b') : Form (b++t++b') v := by
  cases h with
  | @object ms us ht hms hus =>
    obtain @⟨b₁,b₂,b₃,hb₁,hb₂,hb₃⟩ := ht
    refine .object ?_ hms hus
    simpa using ObjectOf.intro (hb.append hb₁) hb₂ (hb₃.append hb')
  | @list ts vs ht hts hvs =>
    obtain @⟨b₁,b₂,b₃,hb₁,hb₂,hb₃⟩ := ht
    refine .list ?_ hts hvs
    simpa using ListOf.intro (hb.append hb₁) hb₂ (hb₃.append hb')
  | single hobject hlist => exact .single hobject hlist

theorem WellFormed.exists_form {t : List Char} (ht : WellFormed t) :
    ∃ v, ReadsAs t v ∧ Form t v := by
  induction ht with
  | object hb hkeys hvalues =>
    have hms := fun m hm => And.intro (hkeys m hm) (hvalues m hm)
    obtain ⟨us,hus⟩ := exists_trees hms
    refine ⟨_,readsAs_object hb hus,.object ?_ hms hus⟩
    simpa using ObjectOf.intro Blanks.nil hb Blanks.nil
  | list hb hss =>
    obtain ⟨vs,hvs⟩ := exists_forall₂ fun s hs => (hss s hs).readsAs.imp fun _ h => h.1
    refine ⟨_,readsAs_list hb hvs,.list ?_ hss hvs⟩
    simpa using ListOf.intro Blanks.nil hb Blanks.nil
  | spaced hb _ hb' ih =>
    obtain ⟨v,hv,hform⟩ := ih
    exact ⟨v,hv.spaced hb hb',hform.spaced hb hb'⟩
  | nullWord =>
    exact ⟨_,readsAs_of_next? (t := .plain .null) rfl (fun _ => rfl) fun _ _ => rfl,
      .single nofun nofun⟩
  | trueWord =>
    exact ⟨_,readsAs_of_next? (t := .plain (.bool true)) rfl (fun _ => rfl) fun _ _ => rfl,
      .single nofun nofun⟩
  | falseWord =>
    exact ⟨_,readsAs_of_next? (t := .plain (.bool false)) rfl (fun _ => rfl) fun _ _ => rfl,
      .single nofun nofun⟩
  | number hs =>
    obtain ⟨n,hn⟩ := next?_numeralText hs
    exact ⟨_,readsAs_of_next? (t := .plain (.number n)) rfl (fun _ => rfl) hn,
      .single nofun nofun⟩
  | string hs =>
    obtain ⟨w,hw⟩ := next?_stringText hs
    exact ⟨_,readsAs_of_next? (t := .string w) rfl (fun _ => rfl) fun r _ => hw r,
      .single nofun nofun⟩

namespace Record
variable {σ ι α : Type}

/-- The texts of a record by the text of one field, with everything else in them left as it is. -/
inductive Around (r : Record σ) (name : String) : (List Char → List Char) → Prop
  | object {b₁ b₂ b₃ k : List Char} {before after : List (List Char × List Char)}
    (hb₁ : Blanks b₁) (hb₂ : Blanks b₂) (hb₃ : Blanks b₃) (hk : KeyOf k name.toList)
    (hms : ∀ m ∈ before++after, KeyText m.1 ∧ WellFormed m.2) :
    Around r name fun t => b₁ ++ objectText b₂ (before ++ (k,t)::after) ++ b₃
  | list {b₁ b₂ b₃ : List Char} {before after : List (List Char)}
    (hb₁ : Blanks b₁) (hb₂ : Blanks b₂) (hb₃ : Blanks b₃)
    (hname : (r.fields.map Field.name)[before.length]? = some name)
    (hts : ∀ s ∈ before++after, WellFormed s) :
    Around r name fun t => b₁ ++ listText b₂ (before ++ t::after) ++ b₃

/-- The texts of a record that do not have the field: no member of an object has its name for a key,
or a list ends before it. -/
inductive Lacks (r : Record σ) (name : String) : List Char → Prop
  | object {ms : List (List Char × List Char)} {t : List Char} (ht : ObjectOf ms t)
    (hms : ∀ m ∈ ms, KeyText m.1 ∧ WellFormed m.2) (hkeys : ∀ m ∈ ms, ¬ KeyOf m.1 name.toList) :
    Lacks r name t
  | list {ts : List (List Char)} {t : List Char} (ht : ListOf ts t) (hts : ∀ s ∈ ts, WellFormed s)
    (hname : name ∉ (r.fields.map Field.name).take ts.length) : Lacks r name t

/-- A field fills one part of the record, and no other field changes that part. -/
structure Fills (r : Record σ) (f : Field σ) (read : Reader α) (get : σ → α) : Prop where
  mem : f ∈ r.fields
  get_of_set {v : Json} {s s' : σ} : f.set v s = .ok s' → read v = .ok (get s')
  congr {v v' : Json} {x : α} : read v = .ok x → read v' = .ok x → f.set v = f.set v'
  keep {g : Field σ} : g ∈ r.fields → g.name ≠ f.name → ∀ {v : Json} {s s' : σ},
    g.set v s = .ok s' → get s' = get s

variable {r : Record σ} {S : Schema σ ι}

theorem readMembers_append (seen : List String) (s : σ) (us us' : List (Option Word × Json)) :
    r.readMembers seen s (us++us') =
      (r.readMembers seen s us).bind fun p => r.readMembers p.1 p.2 us' := by
  induction us generalizing seen s with
  | nil => rfl
  | cons u us ih =>
    rw [List.cons_append,readMembers,readMembers]
    cases r.readMember seen s u with
    | error => rfl
    | ok p => exact ih p.1 p.2

theorem readMember_cases {u : Option Word × Json} {seen seen' : List String} {s s' : σ}
    (h : r.readMember seen s u = .ok (seen',s')) :
    seen' = seen ∧ s' = s ∨
      ∃ g ∈ r.fields, g.name ∉ seen ∧ seen' = g.name::seen ∧ g.set u.2 s = .ok s' := by
  obtain ⟨w,-,h⟩ := bind_eq_ok.1 h
  cases hf : r.find? w with
  | none =>
    rw [hf] at h
    obtain ⟨_,-,h⟩ := bind_eq_ok.1 h
    obtain ⟨rfl,rfl⟩ := Prod.mk.inj (Except.ok.inj h)
    exact .inl ⟨rfl,rfl⟩
  | some g =>
    rw [hf] at h
    by_cases hseen : g.name ∈ seen
    · simp [hseen,bind,Except.bind,throw,throwThe,MonadExceptOf.throw] at h
    · simp only [hseen,if_false] at h
      obtain ⟨_,hset,h⟩ := bind_eq_ok.1 h
      obtain ⟨rfl,rfl⟩ := Prod.mk.inj (Except.ok.inj h)
      exact .inr ⟨g,List.mem_of_find?_eq_some hf,hseen,rfl,hset⟩

namespace Fills
variable {f : Field σ} {read : Reader α} {get : σ → α} (h : r.Fills f read get)
include h

theorem get_of_seen {us : List (Option Word × Json)} {seen seen' : List String} {s s' : σ}
    (hseen : f.name ∈ seen) (hs : r.readMembers seen s us = .ok (seen',s')) : get s' = get s := by
  induction us generalizing seen s with
  | nil =>
    obtain ⟨-,rfl⟩ := Prod.mk.inj (Except.ok.inj hs)
    rfl
  | cons u us ih =>
    obtain ⟨⟨seen₁,s₁⟩,hmember,hrest⟩ := bind_eq_ok.1 hs
    rcases readMember_cases hmember with ⟨rfl,rfl⟩ | ⟨g,hg,hnew,rfl,hset⟩
    · exact ih hseen hrest
    · have hne : g.name ≠ f.name := fun he => hnew (he ▸ hseen)
      exact (ih (List.mem_cons_of_mem _ hseen) hrest).trans (h.keep hg hne hset)

theorem get_of_not_seen {us : List (Option Word × Json)} {seen seen' : List String} {s s' : σ}
    (hseen : f.name ∉ seen') (hs : r.readMembers seen s us = .ok (seen',s')) : get s' = get s := by
  induction us generalizing seen s with
  | nil =>
    obtain ⟨-,rfl⟩ := Prod.mk.inj (Except.ok.inj hs)
    rfl
  | cons u us ih =>
    obtain ⟨⟨seen₁,s₁⟩,hmember,hrest⟩ := bind_eq_ok.1 hs
    rcases readMember_cases hmember with ⟨-,rfl⟩ | ⟨g,hg,-,rfl,hset⟩
    · exact ih hrest
    · have hmem : g.name ∈ seen' := by
        rw [(seen_of_readMembers hrest).1]
        exact List.mem_append_right _ (.head _)
      have hne : g.name ≠ f.name := fun he => hseen (he ▸ hmem)
      exact (ih hrest).trans (h.keep hg hne hset)

theorem get_of_others {fields : List (Field σ)} (hsub : fields ⊆ r.fields) {vs : List Json}
    (hother : ∀ g ∈ fields.take vs.length, g.name ≠ f.name) {n : Nat} {s s' : σ}
    (hs : r.readItems none n s fields vs = .ok s') : get s' = get s := by
  induction vs generalizing fields n s with
  | nil => rw [(readItems_nil_iff.1 hs).2]
  | cons v vs ih =>
    cases fields with
    | nil => simp [readItems,malformed] at hs
    | cons g fields =>
      obtain ⟨s₁,hset,hrest⟩ := bind_eq_ok.1 hs
      obtain ⟨hg,hfields⟩ := List.forall_mem_cons.1 hother
      exact (ih (List.subset_of_cons_subset hsub) hfields hrest).trans
        (h.keep (hsub (.head _)) hg hset)

variable (hS : r.Follows S)
include hS

theorem read_object {before after : List (Option Word × Json)} {v : Json} {s : σ}
    (hs : r.read (.object (before ++ (some f.name.toList,v)::after) none) = .ok s) :
    read v = .ok (get s) ∧ ∀ {v'}, read v' = .ok (get s) →
      r.read (.object (before ++ (some f.name.toList,v')::after) none) = .ok s := by
  have hfind := (r.find?_toList _).trans (hS.find?_of_mem h.mem)
  have hv : read v = .ok (get s) := by
    obtain ⟨seen,hms,-⟩ := read_object_ok hs
    rw [readMembers_append] at hms
    obtain ⟨⟨seen₁,s₁⟩,-,hms⟩ := bind_eq_ok.1 hms
    by_cases hseen : f.name ∈ seen₁
    · obtain ⟨_,hmember,-⟩ := bind_eq_ok.1 hms
      simp [readMember,keyText,hfind,hseen,bind,Except.bind,throw,throwThe,
        MonadExceptOf.throw] at hmember
    · rw [readMembers_field (hS.find?_of_mem h.mem) hseen] at hms
      obtain ⟨s₂,hset,hrest⟩ := bind_eq_ok.1 hms
      rw [h.get_of_seen (.head _) hrest]
      exact h.get_of_set hset
  refine ⟨hv,fun {v'} hv' => ?_⟩
  -- Both members do the same to any record, so the members after them are read alike, too.
  have hmember (seen : List String) (s : σ) : r.readMember seen s (some f.name.toList,v') =
      r.readMember seen s (some f.name.toList,v) := by
    simp only [readMember,keyText,bind,Except.bind,hfind,h.congr hv' hv]
  rw [← hs]
  simp only [Record.read,readMembers_append,readMembers,hmember]

theorem readItems_field {fields : List (Field σ)} (hsub : fields.Sublist r.fields)
    {before after : List Json} {v : Json}
    (hname : (fields.map Field.name)[before.length]? = some f.name) {n : Nat} {s s' : σ}
    (hs : r.readItems none n s fields (before ++ v::after) = .ok s') :
    read v = .ok (get s') ∧ ∀ {v'}, read v' = .ok (get s') →
      r.readItems none n s fields (before ++ v'::after) = .ok s' := by
  induction before generalizing fields n s with
  | nil =>
    cases fields with
    | nil => simp at hname
    | cons g fields =>
      have hg : g.name = f.name := by simpa using hname
      obtain rfl := hS.eq_of_name (hsub.subset (.head _)) h.mem hg
      obtain ⟨s₁,hset,hrest⟩ := bind_eq_ok.1 hs
      have hnodup : (g.name::fields.map Field.name).Nodup :=
        (hS.names ▸ hS.nodup).sublist (hsub.map Field.name)
      have hother : ∀ g' ∈ fields, g'.name ≠ g.name := fun g' hg' he =>
        (List.nodup_cons.1 hnodup).1 (he ▸ List.mem_map_of_mem hg')
      have hget := h.get_of_others (List.subset_of_cons_subset hsub.subset)
        (fun g' hg' => hother g' (List.mem_of_mem_take hg')) hrest
      have hv : read v = .ok (get s') := hget ▸ h.get_of_set hset
      refine ⟨hv,fun {v'} hv' => ?_⟩
      rw [List.nil_append,readItems,h.congr hv' hv]
      exact hs
  | cons u before ih =>
    cases fields with
    | nil => simp at hname
    | cons g fields =>
      obtain ⟨s₁,hset,hrest⟩ := bind_eq_ok.1 hs
      obtain ⟨hv,hreplace⟩ := ih (List.sublist_of_cons_sublist hsub) (by simpa using hname) hrest
      refine ⟨hv,fun hv' => ?_⟩
      rw [List.cons_append,readItems,hset]
      exact hreplace hv'

/-- The text of a field alone decides what the record holds there, and with another text that is
read alike the whole record is read alike. -/
theorem read_around {around : List Char → List Char} (haround : r.Around f.name around)
    {t : List Char} {v : Json} (ht : ReadsAs t v) {s : σ}
    (hs : Reader.run r.read (around t) = .ok s) :
    read v = .ok (get s) ∧ ∀ {t' v'}, ReadsAs t' v' → read v' = .ok (get s) →
      Reader.run r.read (around t') = .ok s := by
  cases haround with
  | @object b₁ b₂ b₃ k before after hb₁ hb₂ hb₃ hk hms =>
    obtain ⟨us₁,hus₁⟩ := exists_trees fun m hm => hms m (List.mem_append_left after hm)
    obtain ⟨us₂,hus₂⟩ := exists_trees fun m hm => hms m (List.mem_append_right before hm)
    have hread {t v} (ht : ReadsAs t v) :
        ReadsAs (b₁ ++ objectText b₂ (before ++ (k,t)::after) ++ b₃)
          (.object (us₁ ++ (some f.name.toList,v)::us₂) none) :=
      ObjectOf.readsAs ⟨hb₁,hb₂,hb₃⟩
        (List.rel_append hus₁ (.cons ⟨hk.keyReadsAs,ht⟩ hus₂))
    rw [(hread ht).run] at hs
    obtain ⟨hv,hreplace⟩ := h.read_object hS hs
    exact ⟨hv,fun ht' hv' => ((hread ht').run _).trans (hreplace hv')⟩
  | @list b₁ b₂ b₃ before after hb₁ hb₂ hb₃ hname hts =>
    have htrees {ts} (hsub : ts ⊆ before++after) : ∃ vs, List.Forall₂ ReadsAs ts vs :=
      exists_forall₂ fun s hs => (hts s (hsub hs)).readsAs.imp fun _ h => h.1
    obtain ⟨vs₁,hvs₁⟩ := htrees (List.subset_append_left before after)
    obtain ⟨vs₂,hvs₂⟩ := htrees (List.subset_append_right before after)
    have hread {t v} (ht : ReadsAs t v) :
        ReadsAs (b₁ ++ listText b₂ (before ++ t::after) ++ b₃) (.list (vs₁ ++ v::vs₂) none) :=
      ListOf.readsAs ⟨hb₁,hb₂,hb₃⟩ (List.rel_append hvs₁ (.cons ht hvs₂))
    rw [hvs₁.length_eq] at hname
    rw [(hread ht).run] at hs
    obtain ⟨hv,hreplace⟩ := h.readItems_field hS (.refl _) hname hs
    exact ⟨hv,fun ht' hv' => ((hread ht').run _).trans (hreplace hv')⟩

/-- A text that is accepted has a text for the field somewhere, or it lacks the field and the record
has in this part what it had there at the beginning. -/
theorem exists_around {t : List Char} {s : σ} (hs : Reader.run r.read t = .ok s) :
    r.Lacks f.name t ∧ get s = get r.initial ∨
      ∃ around u, r.Around f.name around ∧ WellFormed u ∧ t = around u := by
  obtain ⟨hroot,hfollowed⟩ := Reader.run_eq_ok.1 hs
  have hform := Document.wellFormed_of_whole ⟨hfollowed,r.thorough_read hroot⟩
  obtain ⟨v,hv,hform⟩ := hform.exists_form
  rw [hv.run] at hs
  cases hform with
  | @object ms us ht hms hus =>
    obtain ⟨hb₁,hb₂,hb₃⟩ := ht
    by_cases hkey : ∃ m ∈ ms, KeyOf m.1 f.name.toList
    · obtain ⟨⟨k,u⟩,hm,hk⟩ := hkey
      have hu := (hms _ hm).2
      obtain ⟨before,after,rfl⟩ := List.append_of_mem hm
      refine .inr ⟨_,u,.object hb₁ hb₂ hb₃ hk fun m hm => hms m ?_,hu,rfl⟩
      exact ((List.sublist_cons_self _ after).append_left before).subset hm
    · have hkeys : ∀ m ∈ ms, ¬ KeyOf m.1 f.name.toList := fun m hm hk => hkey ⟨m,hm,hk⟩
      obtain ⟨seen,hread,-⟩ := read_object_ok hs
      refine .inl ⟨.object ⟨hb₁,hb₂,hb₃⟩ hms hkeys,h.get_of_not_seen ?_ hread⟩
      have hname : f.name ∈ S.names := hS.names ▸ List.mem_map_of_mem h.mem
      have hknown := hS.not_mem_known hus (fun m hm => (hms m hm).1) hname hkeys
      rw [(seen_of_readMembers hread).1]
      simpa using hknown
  | @list ts vs ht hts hvs =>
    obtain ⟨hb₁,hb₂,hb₃⟩ := ht
    obtain ⟨k,hk⟩ := List.getElem?_of_mem h.mem
    by_cases hlt : k < ts.length
    · obtain ⟨before,u,after,rfl,hlength⟩ :
          ∃ before u after, ts = before ++ u::after ∧ before.length = k :=
        ⟨ts.take k,ts[k],ts.drop (k+1),by simp,List.length_take_of_le (Nat.le_of_lt hlt)⟩
      refine .inr ⟨_,u,.list hb₁ hb₂ hb₃ ?_ fun s hs => hts s ?_,hts u (by simp),rfl⟩
      · rw [hlength,List.getElem?_map,hk]
        rfl
      · exact ((List.sublist_cons_self _ after).append_left before).subset hs
    -- The list ends before the field: what stands there is for the fields in front of it.
    · have hfront : f.name ∉ (r.fields.map Field.name).take ts.length := by
        have hnodup : (r.fields.map Field.name).Nodup := hS.names ▸ hS.nodup
        have hrest : f.name ∈ (r.fields.map Field.name).drop ts.length := by
          rw [← List.map_drop]
          refine List.mem_map_of_mem (List.mem_of_getElem? (i := k-ts.length) ?_)
          rw [List.getElem?_drop,Nat.add_sub_cancel' (Nat.le_of_not_lt hlt),hk]
        exact fun hfront => List.disjoint_take_drop hnodup (Nat.le_refl _) hfront hrest
      refine .inl ⟨.list ⟨hb₁,hb₂,hb₃⟩ hts hfront,
        h.get_of_others (List.Subset.refl _) (fun g hg he => hfront ?_) hs⟩
      rw [← List.map_take,← he,hvs.length_eq]
      exact List.mem_map_of_mem hg
  | single hobject hlist =>
    cases v with
    | object => exact absurd rfl (hobject _ _)
    | list => exact absurd rfl (hlist _ _)
    | _ => exact absurd hs (refuse_ne_ok _ _ _)

end Fills
end Record
end Lindenmayer.Json
