import Lindenmayer.Proofs.Json.Lexing

/-! The texts that a reader steps over are those that the grammar gives, and each of them is read as
one and the same tree wherever it stands. -/

namespace Lindenmayer.Json

theorem exists_forall₂ {α β : Type} {R : α → β → Prop} {xs : List α} (h : ∀ x ∈ xs, ∃ y, R x y) :
    ∃ ys, List.Forall₂ R xs ys := by
  induction xs with
  | nil => exact ⟨[],.nil⟩
  | cons x xs ih =>
    obtain ⟨y,hy⟩ := h x (.head _)
    obtain ⟨ys,hys⟩ := ih fun u hu => h u (.tail _ hu)
    exact ⟨y::ys,.cons hy hys⟩

theorem Blanks.append {b b' : List Char} (hb : Blanks b) (hb' : Blanks b') : Blanks (b++b') :=
  fun c hc => (List.mem_append.1 hc).elim (hb c) (hb' c)

theorem KeyText.spaced {b k b' : List Char} (hb : Blanks b) (hk : KeyText k) (hb' : Blanks b') :
    KeyText (b++k++b') := by
  obtain ⟨hb₁,hs,hb₂⟩ := hk
  simpa using KeyText.intro (hb.append hb₁) hs (hb₂.append hb')

theorem KeyText.keyReadsAs {k : List Char} (hk : KeyText k) :
    ∃ w, KeyReadsAs k w ∧ Document.ofText k = ⟨.string w,false⟩ := by
  obtain @⟨b,s,b',hb,hs,hb'⟩ := hk
  obtain ⟨w,hw⟩ := next?_stringText hs
  refine ⟨w,?_,?_⟩
  · intro p before within hp r
    rw [List.append_assoc,List.append_assoc,Progress.follow_blanks hb,
      Progress.follow_of_next? (hw _),hp,Progress.follow_blanks hb']
  · have hread : ReadsAs (stringText s) (.string w) :=
      readsAs_of_next? (t := .string w) rfl (fun _ => rfl) fun r _ => hw r
    exact (hread.spaced hb hb').ofText

theorem exists_members {ms : List (List Char × List Char)}
    (hms : ∀ m ∈ ms, KeyText m.1 ∧ ∃ v, ReadsAs m.2 v) :
    ∃ us, List.Forall₂ MemberReadsAs ms us := by
  refine exists_forall₂ fun m hm => ?_
  obtain ⟨hkey,v,hv⟩ := hms m hm
  obtain ⟨w,hw,-⟩ := hkey.keyReadsAs
  exact ⟨(w,v),hw,hv⟩

/-- A text that the grammar gives is read as one tree, and as a string only if it may be a key. -/
theorem WellFormed.exists_tree {s : List Char} (hs : WellFormed s) :
    ∃ v, ReadsAs s v ∧ v.skip = .ok () ∧ ∀ w, v = .string w → KeyText s := by
  induction hs with
  | nullWord =>
    exact ⟨_,readsAs_of_next? (t := .plain .null) rfl (fun _ => rfl) fun _ _ => rfl,rfl,nofun⟩
  | trueWord =>
    exact ⟨_,readsAs_of_next? (t := .plain (.bool true)) rfl (fun _ => rfl) fun _ _ => rfl,rfl,
      nofun⟩
  | falseWord =>
    exact ⟨_,readsAs_of_next? (t := .plain (.bool false)) rfl (fun _ => rfl) fun _ _ => rfl,rfl,
      nofun⟩
  | number hs =>
    obtain ⟨n,hn⟩ := next?_numeralText hs
    exact ⟨_,readsAs_of_next? (t := .plain (.number n)) rfl (fun _ => rfl) hn,rfl,nofun⟩
  | string hs =>
    obtain ⟨w,hw⟩ := next?_stringText hs
    refine ⟨_,readsAs_of_next? (t := .string w) rfl (fun _ => rfl) fun r _ => hw r,rfl,?_⟩
    exact fun _ _ => by simpa using KeyText.intro .nil hs .nil
  | list hb _ ih =>
    obtain ⟨vs,hvs⟩ := exists_forall₂ fun s hs => (ih s hs).imp fun _ h => h.1
    exact ⟨_,readsAs_list hb hvs,rfl,nofun⟩
  | object hb hkeys _ ih =>
    obtain ⟨us,hus⟩ := exists_members fun m hm => ⟨hkeys m hm,(ih m hm).imp fun _ h => h.1⟩
    exact ⟨_,readsAs_object hb hus,rfl,nofun⟩
  | spaced hb _ hb' ih =>
    obtain ⟨v,hv,hskip,hkey⟩ := ih
    exact ⟨v,hv.spaced hb hb',hskip,fun w hw => (hkey w hw).spaced hb hb'⟩

theorem WellFormed.readsAs {s : List Char} (hs : WellFormed s) :
    ∃ v, ReadsAs s v ∧ v.skip = .ok () :=
  hs.exists_tree.imp fun _ h => ⟨h.1,h.2.1⟩

/-- A document that is a value and nothing else. -/
structure Document.Whole (d : Document) : Prop where
  followed : d.followed = false
  skip : d.root.skip = .ok ()

namespace Progress

theorem follow_done (d : Document) (s : List Char) : (done d).follow s = d := by
  generalize hp : done d = p
  fun_induction follow p s with
  | case1 => rw [← hp]; rfl
  | case2 _ _ _ _ _ ih =>
    subst hp
    exact ih rfl

theorem skip_unwind {b : Break} {v : Json} {within : List Opened}
    (h : (unwind b v within).skip = .ok ()) : within = [] ∧ v.skip = .ok () := by
  induction within generalizing v with
  | nil => exact ⟨rfl,h⟩
  | cons o within ih =>
    obtain ⟨-,hclosed⟩ := ih h
    cases o <;> simp [Opened.close,skip] at hclosed

theorem not_whole_brokenOff {b : Break} {v : Json} {within : List Opened} {s : List Char}
    (hv : within ≠ [] ∨ v.skip ≠ .ok ()) (h : ((brokenOff b v within).follow s).Whole) : False := by
  rw [brokenOff,follow_done] at h
  obtain ⟨rfl,hskip⟩ := skip_unwind h.skip
  exact hv.elim (· rfl) (· hskip)

theorem not_whole_stop {p : Progress} {b : Break} {s : List Char} (hp : ∀ d, p ≠ .done d)
    (h : ((p.stop b).follow s).Whole) : False := by
  cases p with
  | value | firstItem | firstKey | key | colon =>
    exact not_whole_brokenOff (.inr (by simp [skip])) h
  | more v within =>
    cases within with
    | nil =>
      have hfollowed := h.followed
      simp [stop,follow_done] at hfollowed
    | cons o within => exact not_whole_brokenOff (.inl (by simp)) h
  | done d => exact hp d rfl

theorem not_whole_malformed {p : Progress} {s : List Char} (hp : ∀ d, p ≠ .done d)
    (h : (p.malformed.follow s).Whole) : False := not_whole_stop hp h

theorem not_whole_finish {p : Progress} (hp : ∀ d, p ≠ .done d) (hmore : ∀ v, p ≠ .more v [])
    (h : p.finish.Whole) : False := by
  refine not_whole_stop (b := .of .truncated) (s := []) hp ?_
  cases p with
  | value | firstItem | firstKey | key | colon => exact (follow_done _ []).symm ▸ h
  | more v within =>
    cases within with
    | nil => exact absurd rfl (hmore v)
    | cons => exact (follow_done _ []).symm ▸ h
  | done d => exact absurd rfl (hp d)

theorem step_of_isBroken {t : Token} (ht : t.isBroken = true) (p : Progress) :
    ∃ b, p.step t = p.stop b := by
  cases t with
  | broken b | brokenString b =>
    cases p with
    | more v within =>
      refine ⟨.of .malformed,?_⟩
      cases within with
      | nil => rfl
      | cons o within => cases o <;> rfl
    | done d => exact ⟨.of .malformed,rfl⟩
    | _ => exact ⟨_,rfl⟩
  | _ => simp [Token.isBroken] at ht

/-- As long as a document that will be whole is not at its end, a token comes next. -/
theorem exists_token {p : Progress} {s : List Char} (hp : ∀ d, p ≠ .done d)
    (hmore : ∀ v, p ≠ .more v []) (h : (p.follow s).Whole) :
    ∃ b w t u, Blanks b ∧ Token.Spelling t w ∧ s = b++(w++u) ∧ Token.next? s = some (t,u) := by
  cases hnext : Token.next? s with
  | none =>
    rw [follow_of_none hnext] at h
    exact (not_whole_finish hp hmore h).elim
  | some tu =>
    obtain ⟨t,u⟩ := tu
    by_cases ht : t.isBroken = true
    · obtain ⟨b,hb⟩ := step_of_isBroken ht p
      rw [follow_of_next? hnext,hb] at h
      exact (not_whole_stop hp h).elim
    · obtain ⟨b,w,hb,hw,hs⟩ := Token.spelling_of_next? hnext (by simpa using ht)
      exact ⟨b,w,t,u,hb,hw,hs,rfl⟩

/-- From where a value must come next, a value does. -/
def ValueNext (within : List Opened) (s : List Char) : Prop :=
  ((value within).follow s).Whole →
    ∃ w r v, WellFormed w ∧ s = w++r ∧ (value within).follow s = (more v within).follow r

section
variable {n : Nat} (hvalue : ∀ within u, u.length < n → ValueNext within u)
  {within : List Opened}
include hvalue

theorem items_of_whole {s : List Char} (hs : s.length ≤ n) {v : Json} {before : List Json}
    (h : ((more v (.list before::within)).follow s).Whole) :
    ∃ (b : List Char) (ss : List (List Char)) (r : List Char) (v' : Json),
      Blanks b ∧ (∀ w ∈ ss, WellFormed w) ∧
      s = b ++ (ss.flatMap (fun w => ','::w) ++ ']'::r) ∧
      (more v (.list before::within)).follow s = (more v' within).follow r := by
  obtain ⟨b,w,t,u,hb,hw,rfl,hnext⟩ := exists_token (by simp) (by simp) h
  have hstep := follow_of_next? hnext (more v (.list before::within))
  have hlength := Token.length_next? hnext
  rw [hstep] at h
  cases hw with
  | closeList => exact ⟨b,[],u,_,hb,by simp,rfl,hstep⟩
  | comma =>
    obtain ⟨w,r,v₁,hw,rfl,hfollow⟩ := hvalue _ u (by omega) h
    have hr : r.length ≤ n := by simp at hs; omega
    obtain ⟨b₁,ss,r₁,v₂,hb₁,hss,rfl,hend⟩ := items_of_whole hr (hfollow ▸ h)
    refine ⟨b,(w++b₁)::ss,r₁,v₂,hb,?_,by simp,hstep.trans (hfollow.trans hend)⟩
    exact List.forall_mem_cons.2 ⟨by simpa using WellFormed.spaced .nil hw hb₁,hss⟩
  | _ => exact (not_whole_malformed (p := more v (.list before::within)) (by simp) h).elim
termination_by s.length

theorem list_of_whole {s : List Char} (hs : s.length < n)
    (h : ((firstItem within).follow s).Whole) :
    ∃ (b : List Char) (ss : List (List Char)) (r : List Char) (v : Json),
      Blanks b ∧ (∀ w ∈ ss, WellFormed w) ∧ s = b ++ separated [','] ss ++ ']'::r ∧
      (firstItem within).follow s = (more v within).follow r := by
  obtain ⟨b,w,t,u,hb,hw,htext,hnext⟩ := exists_token (by simp) (by simp) h
  have hstep := follow_of_next? hnext (firstItem within)
  by_cases hclose : t = .closeList
  · subst hclose
    cases hw
    exact ⟨b,[],u,_,hb,by simp,by simpa [separated] using htext,hstep⟩
  have hitem : (firstItem within).step t = (value (.list []::within)).step t := by
    cases hw with
    | closeList => exact absurd rfl hclose
    | _ => rfl
  have hsame : (firstItem within).follow s = (value (.list []::within)).follow s := by
    rw [hstep,hitem,follow_of_next? hnext]
  rw [hsame] at h ⊢
  obtain ⟨w,r,v,hw,rfl,hfollow⟩ := hvalue _ s hs h
  have hr : r.length ≤ n := by simp at hs; omega
  obtain ⟨b₁,ss,r₁,v₁,hb₁,hss,rfl,hend⟩ := items_of_whole hvalue hr (hfollow ▸ h)
  refine ⟨[],(w++b₁)::ss,r₁,v₁,.nil,?_,by simp [separated_cons],hfollow.trans hend⟩
  exact List.forall_mem_cons.2 ⟨by simpa using WellFormed.spaced .nil hw hb₁,hss⟩

theorem member_of_whole {s : List Char} (hs : s.length ≤ n) {before : List (Option Word × Json)}
    (h : ((key before within).follow s).Whole) :
    ∃ (m : List Char × List Char) (r : List Char) (k : Option Word) (v : Json),
      KeyText m.1 ∧ WellFormed m.2 ∧ s = memberText m ++ r ∧
      (key before within).follow s = (more v (.member before k::within)).follow r := by
  obtain ⟨b,w,t,u,hb,hw,rfl,hnext⟩ := exists_token (by simp) (by simp) h
  have hstep := follow_of_next? hnext (key before within)
  have hlength := Token.length_next? hnext
  rw [hstep] at h
  cases hw with
  | string k hkey =>
    have hcolon : ((colon before k within).follow u).Whole := h
    obtain ⟨b₁,w₁,t₁,u₁,hb₁,hw₁,rfl,hnext₁⟩ := exists_token (by simp) (by simp) hcolon
    have hstep₁ := follow_of_next? hnext₁ (colon before k within)
    have hlength₁ := Token.length_next? hnext₁
    rw [hstep₁] at hcolon
    cases hw₁ with
    | colon =>
      obtain ⟨w,r,v,hw,rfl,hfollow⟩ := hvalue _ u₁ (by omega) hcolon
      exact ⟨(b ++ stringText _ ++ b₁,w),r,k,v,.intro hb hkey hb₁,hw,by simp [memberText],
        hstep.trans (hstep₁.trans hfollow)⟩
    | _ => exact (not_whole_malformed (p := colon before k within) (by simp) hcolon).elim
  | _ => exact (not_whole_malformed (p := key before within) (by simp) h).elim

theorem members_of_whole {s : List Char} (hs : s.length ≤ n) {v : Json} {k : Option Word}
    {before : List (Option Word × Json)}
    (h : ((more v (.member before k::within)).follow s).Whole) :
    ∃ (b : List Char) (ms : List (List Char × List Char)) (r : List Char) (v' : Json),
      Blanks b ∧ (∀ m ∈ ms, KeyText m.1) ∧ (∀ m ∈ ms, WellFormed m.2) ∧
      s = b ++ (ms.flatMap (fun m => ','::memberText m) ++ '\x7d'::r) ∧
      (more v (.member before k::within)).follow s = (more v' within).follow r := by
  obtain ⟨b,w,t,u,hb,hw,rfl,hnext⟩ := exists_token (by simp) (by simp) h
  have hstep := follow_of_next? hnext (more v (.member before k::within))
  have hlength := Token.length_next? hnext
  rw [hstep] at h
  cases hw with
  | closeObject => exact ⟨b,[],u,_,hb,by simp,by simp,rfl,hstep⟩
  | comma =>
    obtain ⟨m,r,k₁,v₁,hkey,hm,rfl,hfollow⟩ := member_of_whole hvalue (by omega) h
    have hr : r.length ≤ n := by simp at hs; omega
    obtain ⟨b₁,ms,r₁,v₂,hb₁,hkeys,hms,rfl,hend⟩ := members_of_whole hr (hfollow ▸ h)
    refine ⟨b,(m.1,m.2++b₁)::ms,r₁,v₂,hb,?_,?_,by simp [memberText],
      hstep.trans (hfollow.trans hend)⟩
    · exact List.forall_mem_cons.2 ⟨hkey,hkeys⟩
    · exact List.forall_mem_cons.2 ⟨by simpa using WellFormed.spaced .nil hm hb₁,hms⟩
  | _ => exact (not_whole_malformed (p := more v (.member before k::within)) (by simp) h).elim
termination_by s.length

theorem object_of_whole {s : List Char} (hs : s.length ≤ n)
    (h : ((firstKey within).follow s).Whole) :
    ∃ (b : List Char) (ms : List (List Char × List Char)) (r : List Char) (v : Json),
      Blanks b ∧ (∀ m ∈ ms, KeyText m.1) ∧ (∀ m ∈ ms, WellFormed m.2) ∧
      s = b ++ separated [','] (ms.map memberText) ++ '\x7d'::r ∧
      (firstKey within).follow s = (more v within).follow r := by
  obtain ⟨b,w,t,u,hb,hw,htext,hnext⟩ := exists_token (by simp) (by simp) h
  have hstep := follow_of_next? hnext (firstKey within)
  by_cases hclose : t = .closeObject
  · subst hclose
    cases hw
    exact ⟨b,[],u,_,hb,by simp,by simp,by simpa [separated] using htext,hstep⟩
  have hkey : (firstKey within).step t = (key [] within).step t := by
    cases hw with
    | closeObject => exact absurd rfl hclose
    | _ => rfl
  have hsame : (firstKey within).follow s = (key [] within).follow s := by
    rw [hstep,hkey,follow_of_next? hnext]
  rw [hsame] at h ⊢
  obtain ⟨m,r,k,v,hkey,hm,rfl,hfollow⟩ := member_of_whole hvalue hs h
  have hr : r.length ≤ n := by simp at hs; omega
  obtain ⟨b₁,ms,r₁,v₁,hb₁,hkeys,hms,rfl,hend⟩ := members_of_whole hvalue hr (hfollow ▸ h)
  refine ⟨[],(m.1,m.2++b₁)::ms,r₁,v₁,.nil,?_,?_,
    by simp [separated_cons,memberText,List.flatMap_map],hfollow.trans hend⟩
  · exact List.forall_mem_cons.2 ⟨hkey,hkeys⟩
  · exact List.forall_mem_cons.2 ⟨by simpa using WellFormed.spaced .nil hm hb₁,hms⟩

theorem valueNext_of_length_le {s : List Char} (hs : s.length ≤ n) : ValueNext within s := by
  intro h
  obtain ⟨b,w,t,u,hb,hw,rfl,hnext⟩ := exists_token (by simp) (by simp) h
  have hstep := follow_of_next? hnext (value within)
  have hlength := Token.length_next? hnext
  have hone : ∀ {v}, WellFormed w → (value within).step t = more v within →
      ∃ w' r v, WellFormed w' ∧ b++(w++u) = w'++r ∧
        (value within).follow (b++(w++u)) = (more v within).follow r := fun hform hmore =>
    ⟨b++w++[],u,_,.spaced hb hform .nil,by simp,by rw [hstep,hmore]⟩
  rw [hstep] at h
  cases hw with
  | string k hchars => exact hone (.string hchars) rfl
  | nullWord => exact hone .nullWord rfl
  | trueWord => exact hone .trueWord rfl
  | falseWord => exact hone .falseWord rfl
  | number n htext => exact hone (.number htext) rfl
  | openList =>
    obtain ⟨b₁,ss,r,v,hb₁,hss,rfl,hfollow⟩ := list_of_whole hvalue (by omega) h
    exact ⟨b ++ listText b₁ ss ++ [],r,v,.spaced hb (.list hb₁ hss) .nil,by simp [listText],
      hstep.trans hfollow⟩
  | openObject =>
    obtain ⟨b₁,ms,r,v,hb₁,hkeys,hms,rfl,hfollow⟩ := object_of_whole hvalue (by omega) h
    exact ⟨b ++ objectText b₁ ms ++ [],r,v,.spaced hb (.object hb₁ hkeys hms) .nil,
      by simp [objectText],hstep.trans hfollow⟩
  | _ => exact (not_whole_malformed (p := value within) (by simp) h).elim

end

/-- By induction on the length of the text: what stands inside a value is shorter than it. -/
theorem valueNext (n : Nat) : ∀ within u, u.length < n → ValueNext within u := by
  induction n with
  | zero => exact fun _ _ hu => absurd hu (Nat.not_lt_zero _)
  | succ n ih => exact fun within u hu => valueNext_of_length_le ih (Nat.le_of_lt_succ hu)

end Progress

theorem Document.wellFormed_of_whole {s : List Char} (h : (Document.ofText s).Whole) :
    WellFormed s := by
  obtain ⟨w,r,v,hw,rfl,hfollow⟩ := Progress.valueNext _ [] s (Nat.lt_succ_self _) h
  have hr : Token.next? r = none := by
    cases hnext : Token.next? r with
    | none => rfl
    | some u =>
      have hfollowed := h.followed
      rw [Document.ofText,hfollow,Progress.follow_of_next? hnext] at hfollowed
      simp [Progress.step,Progress.malformed,Progress.stop,Progress.follow_done] at hfollowed
  simpa using WellFormed.spaced .nil hw (Token.blanks_of_next? hr)

theorem WellFormed.whole {s : List Char} (hs : WellFormed s) : (Document.ofText s).Whole := by
  obtain ⟨v,hv,hskip⟩ := hs.readsAs
  rw [hv.ofText]
  exact ⟨rfl,hskip⟩

theorem Document.whole_iff (s : List Char) : (Document.ofText s).Whole ↔ WellFormed s :=
  ⟨wellFormed_of_whole,WellFormed.whole⟩

theorem Reader.run_eq_ok {α : Type} {read : Reader α} {t : Word} {x : α} :
    Reader.run read t = .ok x ↔
      read (Document.ofText t).root = .ok x ∧ (Document.ofText t).followed = false := by
  cases h : read (Document.ofText t).root with
  | error => simp [Reader.run,h,bind,Except.bind]
  | ok y =>
    by_cases hf : (Document.ofText t).followed = true <;>
      simp [Reader.run,h,hf,malformed,bind,Except.bind,pure,Except.pure]

/-- The texts that a reader steps over are the well-formed ones. -/
theorem run_skip_iff (t : Word) : Reader.run skip t = .ok () ↔ WellFormed t := by
  rw [Reader.run_eq_ok,← Document.whole_iff]
  exact ⟨fun h => ⟨h.2,h.1⟩,fun h => ⟨h.skip,h.followed⟩⟩

end Lindenmayer.Json
