import BlockTemplate.Proofs.Section.Document

/-!
# Edits of documents

A document is put in place of the body of a block, or in place of a placeholder. Neither touches what
the rest of the document says: the other sections stay, but for the one that holds the placeholder.
-/

namespace BlockTemplate

namespace Document

def withBody : Document → (b : Text) → (e : Document) → Document
  | .nil, _, _ => .nil
  | .text t rest, b, e => .text t (rest.withBody b e)
  | .placeholder name rest, b, e => .placeholder name (rest.withBody b e)
  | .filtered name f rest, b, e => .filtered name f (rest.withBody b e)
  | .call name args rest, b, e => .call name args (rest.withBody b e)
  | .comment body rest, b, e => .comment body (rest.withBody b e)
  | .block name body rest, b, e =>
    .block name (if name = b then e else body.withBody b e) (rest.withBody b e)

def replace (d : Document) (b : Text) (e : Document) : Document :=
  if b = rootName then e else d.withBody b e

def bodies : Document → List (Text × Document)
  | .nil => []
  | .text _ rest => rest.bodies
  | .placeholder _ rest => rest.bodies
  | .filtered _ _ rest => rest.bodies
  | .call _ _ rest => rest.bodies
  | .comment _ rest => rest.bodies
  | .block name body rest => body.bodies ++ (name, body) :: rest.bodies

variable (d : Document) {e : Document} {b t : Text} {x : Text × Document}

theorem inner_eq_map : d.inner = d.bodies.map fun x => x.2.own x.1 := by
  induction d with
  | nil => rfl
  | text u rest ih => exact ih
  | placeholder name rest ih => exact ih
  | filtered name f rest ih => exact ih
  | call name args rest ih => exact ih
  | comment body rest ih => exact ih
  | block name body rest ihb ih => rw [inner, ihb, ih, bodies, List.map_append, List.map_cons]

theorem plain_of_mem_bodies (hc : (d.page t).clean = true)
    (hw : (d.page t).unreservedWithin = true) : ∀ x ∈ d.bodies, (x.2.page []).Plain := by
  induction d generalizing t with
  | nil => exact fun x hx => absurd hx List.not_mem_nil
  | text u rest ih => exact ih hc hw
  | placeholder name rest ih =>
    simp only [page, Page.clean, Bool.and_eq_true] at hc
    exact ih hc.2 hw
  | filtered name f rest ih =>
    simp only [page, Page.clean, Bool.and_eq_true] at hc
    exact ih hc.2 hw
  | call name args rest ih =>
    simp only [page, Page.clean, Bool.and_eq_true] at hc
    exact ih hc.2 hw
  | comment body rest ih => exact ih hc hw
  | block name body rest ihb ih =>
    simp only [page, Page.clean, Bool.and_eq_true] at hc
    simp only [page, Page.unreservedWithin, Bool.and_eq_true] at hw
    rw [bodies, List.forall_mem_append, List.forall_mem_cons]
    exact ⟨ihb hc.1.2 hw.1.2, ⟨hc.1.2, hw.1.1, hw.1.2⟩, ih hc.2 hw.2⟩

theorem commentsEnd_of_mem_bodies (h : d.commentsEnd = true) :
    ∀ x ∈ d.bodies, x.2.commentsEnd = true := by
  induction d with
  | nil => exact fun x hx => absurd hx List.not_mem_nil
  | text u rest ih => exact ih h
  | placeholder name rest ih => exact ih h
  | filtered name f rest ih => exact ih h
  | call name args rest ih => exact ih h
  | comment body rest ih =>
    rw [commentsEnd, Bool.and_eq_true] at h
    exact ih h.2
  | block name body rest ihb ih =>
    rw [commentsEnd, Bool.and_eq_true] at h
    rw [bodies, List.forall_mem_append, List.forall_mem_cons]
    exact ⟨ihb h.1, h.1, ih h.2⟩

theorem names_of_mem_bodies (hx : x ∈ d.bodies) : ∀ n ∈ x.2.names, n ∈ d.names := by
  induction d with
  | nil => cases hx
  | text u rest ih => exact ih hx
  | placeholder name rest ih => exact ih hx
  | filtered name f rest ih => exact ih hx
  | call name args rest ih => exact ih hx
  | comment body rest ih => exact ih hx
  | block name body rest ihb ih =>
    intro n hn
    rw [bodies, List.mem_append, List.mem_cons] at hx
    rw [names, List.mem_append, List.mem_cons]
    rcases hx with hx | rfl | hx
    · exact .inl (ihb hx n hn)
    · exact .inl hn
    · exact .inr (.inr (ih hx n hn))

theorem Plain.of_mem_bodies (h : d.Plain) (hx : x ∈ d.bodies) : x.2.Plain :=
  ⟨d.plain_of_mem_bodies h.page.clean h.page.within x hx, d.commentsEnd_of_mem_bodies h.comments x hx⟩

theorem withBody_of_not_mem (h : b ∉ d.names) : d.withBody b e = d := by
  induction d with
  | nil => rfl
  | text t rest ih => rw [withBody, ih h]
  | placeholder name rest ih => rw [withBody, ih h]
  | filtered name f rest ih => rw [withBody, ih h]
  | call name args rest ih => rw [withBody, ih h]
  | comment body rest ih => rw [withBody, ih h]
  | block name body rest ihb ih =>
    rw [names, List.mem_append, List.mem_cons, not_or, not_or] at h
    rw [withBody, if_neg fun he => h.2.1 he.symm, ihb h.1, ih h.2.2]

theorem parts_withBody : (d.withBody b e).parts = d.parts := by
  induction d with
  | nil => rfl
  | text t rest ih => rw [withBody, parts, ih, parts]
  | placeholder name rest ih => rw [withBody, parts, ih, parts]
  | filtered name f rest ih => rw [withBody, parts, ih, parts]
  | call name args rest ih => rw [withBody, parts, ih, parts]
  | comment body rest ih => rw [withBody, parts, ih, parts]
  | block name body rest _ ih => rw [withBody, parts, ih, parts]

theorem variableNames_withBody : (d.withBody b e).variableNames = d.variableNames := by
  induction d with
  | nil => rfl
  | text t rest ih => exact ih
  | placeholder name rest ih => rw [withBody, variableNames, ih, variableNames]
  | filtered name f rest ih => rw [withBody, variableNames, ih, variableNames]
  | call name args rest ih => rw [withBody, variableNames, ih, variableNames]
  | comment body rest ih => exact ih
  | block name body rest _ ih => exact ih

theorem calls_withBody : (d.withBody b e).filters = d.filters ∧
    (d.withBody b e).inlineCalls = d.inlineCalls := by
  induction d with
  | nil => exact ⟨rfl, rfl⟩
  | text t rest ih => exact ih
  | placeholder name rest ih => exact ih
  | filtered name f rest ih => exact ⟨congrArg (_ :: ·) ih.1, ih.2⟩
  | call name args rest ih => exact ⟨ih.1, congrArg (_ :: ·) ih.2⟩
  | comment body rest ih => exact ih
  | block name body rest _ ih => exact ih

theorem childNames_withBody : (d.withBody b e).childNames = d.childNames := by
  induction d with
  | nil => rfl
  | text t rest ih => exact ih
  | placeholder name rest ih => exact ih
  | filtered name f rest ih => exact ih
  | call name args rest ih => exact ih
  | comment body rest ih => exact ih
  | block name body rest _ ih => rw [withBody, childNames, ih, childNames]

theorem own_withBody (top : Text) : (d.withBody b e).own top = d.own top := by
  rw [own, parts_withBody, variableNames_withBody, childNames_withBody, calls, d.calls_withBody.1,
    d.calls_withBody.2]
  rfl

structure Around (b : Text) (d body : Document) (before after : List Section) : Prop where
  here : d.inner = before ++ (body.inner ++ body.own b :: after)
  edited : ∀ e, (d.withBody b e).inner = before ++ (e.inner ++ e.own b :: after)

theorem exists_around (hn : d.names.Nodup) (hb : b ∈ d.names) :
    ∃ body before after, Around b d body before after := by
  induction d with
  | nil => cases hb
  | text t rest ih =>
    obtain ⟨inside, before, after, ha⟩ := ih hn hb
    exact ⟨inside, before, after, ha.here, ha.edited⟩
  | placeholder name rest ih =>
    obtain ⟨inside, before, after, ha⟩ := ih hn hb
    exact ⟨inside, before, after, ha.here, ha.edited⟩
  | filtered name f rest ih =>
    obtain ⟨inside, before, after, ha⟩ := ih hn hb
    exact ⟨inside, before, after, ha.here, ha.edited⟩
  | call name args rest ih =>
    obtain ⟨inside, before, after, ha⟩ := ih hn hb
    exact ⟨inside, before, after, ha.here, ha.edited⟩
  | comment body rest ih =>
    obtain ⟨inside, before, after, ha⟩ := ih hn hb
    exact ⟨inside, before, after, ha.here, ha.edited⟩
  | block name body rest ihb ih =>
    rw [names, List.nodup_append] at hn
    obtain ⟨hbody, hrest, hdis⟩ := hn
    rw [List.nodup_cons] at hrest
    rw [names, List.mem_append, List.mem_cons] at hb
    -- The block lies in this one, is this one, or comes behind it; its name is nowhere else.
    rcases hb with hb | rfl | hb
    · have hne : name ≠ b := fun he => hdis b hb name List.mem_cons_self he.symm
      have hout : b ∉ rest.names := fun hr => hdis b hb b (List.mem_cons_of_mem _ hr) rfl
      obtain ⟨inside, before, after, ha⟩ := ihb hbody hb
      refine ⟨inside, before, after ++ body.own name :: rest.inner, ?_, ?_⟩
      · rw [inner, ha.here]
        simp only [List.append_assoc, List.cons_append]
      · intro e
        rw [withBody, if_neg hne, inner, ha.edited e, own_withBody, rest.withBody_of_not_mem hout]
        simp only [List.append_assoc, List.cons_append]
    · refine ⟨body, [], rest.inner, rfl, ?_⟩
      intro e
      rw [withBody, if_pos rfl, inner, rest.withBody_of_not_mem hrest.1]
      rfl
    · have hne : name ≠ b := fun he => hrest.1 (he ▸ hb)
      have hout : b ∉ body.names := fun hm => hdis b hm b (List.mem_cons_of_mem _ hb) rfl
      obtain ⟨inside, before, after, ha⟩ := ih hrest.2 hb
      refine ⟨inside, body.inner ++ body.own name :: before, after, ?_, ?_⟩
      · rw [inner, ha.here]
        simp only [List.append_assoc, List.cons_append]
      · intro e
        rw [withBody, if_neg hne, inner, ha.edited e, body.withBody_of_not_mem hout]
        simp only [List.append_assoc, List.cons_append]

theorem exists_outside (hn : d.names.Nodup) (hb : b = rootName ∨ b ∈ d.names) :
    ∃ (body : Document) (outside : List Section),
      (d.sections rootName).Perm (outside ++ body.sections b) ∧
      ∀ e, ((d.replace b e).sections rootName).Perm (outside ++ e.sections b) := by
  by_cases hr : b = rootName
  · subst hr
    exact ⟨d, [], .rfl, fun e => by rw [replace, if_pos rfl]; exact .rfl⟩
  · obtain ⟨body, before, after, ha⟩ := d.exists_around hn (hb.resolve_left hr)
    have hperm : ∀ e : Document, (d.own rootName :: (before ++ (e.inner ++ e.own b :: after))).Perm
        (d.own rootName :: (before ++ after) ++ e.sections b) := by
      intro e
      rw [List.cons_append, List.append_assoc]
      refine (List.Perm.append_left before ?_).cons _
      refine List.perm_append_comm.trans ?_
      rw [List.cons_append, sections]
      exact List.perm_middle.symm
    refine ⟨body, d.own rootName :: (before ++ after), ?_, ?_⟩
    · rw [sections, ha.here]
      exact hperm body
    · intro e
      rw [replace, if_neg hr, sections, own_withBody, ha.edited]
      exact hperm e

theorem childNames_subset : ∀ n ∈ d.childNames, n ∈ d.names := by
  induction d with
  | nil => exact fun n hn => hn
  | text t rest ih => exact ih
  | placeholder name rest ih => exact ih
  | filtered name f rest ih => exact ih
  | call name args rest ih => exact ih
  | comment body rest ih => exact ih
  | block name body rest _ ih =>
    intro n hn
    rw [names, List.mem_append, List.mem_cons]
    exact .inr ((List.mem_cons.mp hn).imp (fun h => h) (ih n))

theorem children_subset (top : Text) : ∀ s ∈ d.sections top, ∀ n ∈ s.children, n ∈ d.names := by
  intro s hs
  rcases List.mem_cons.mp hs with rfl | hs
  · exact d.childNames_subset
  · rw [inner_eq_map] at hs
    obtain ⟨x, hx, rfl⟩ := List.mem_map.mp hs
    exact fun n hn => d.names_of_mem_bodies hx n (x.2.childNames_subset n hn)

theorem names_induction {P : Text → Prop} (hc : ∀ n ∈ d.childNames, P n)
    (hs : ∀ s ∈ d.inner, P s.name → ∀ n ∈ s.children, P n) : ∀ n ∈ d.names, P n := by
  induction d with
  | nil => exact fun n hn => absurd hn List.not_mem_nil
  | text t rest ih => exact ih hc hs
  | placeholder name rest ih => exact ih hc hs
  | filtered name f rest ih => exact ih hc hs
  | call name args rest ih => exact ih hc hs
  | comment body rest ih => exact ih hc hs
  | block name body rest ihb ih =>
    have hin : ∀ s, s ∈ body.inner ∨ s = body.own name ∨ s ∈ rest.inner →
        P s.name → ∀ n ∈ s.children, P n := by
      intro s hm
      refine hs s ?_
      rw [inner, List.mem_append, List.mem_cons]
      exact hm
    have hname : P name := hc name List.mem_cons_self
    intro n hn
    rw [names, List.mem_append, List.mem_cons] at hn
    rcases hn with hn | rfl | hn
    · exact ihb (hin (body.own name) (.inr (.inl rfl)) hname) (fun s hm => hin s (.inl hm)) n hn
    · exact hname
    · exact ih (fun m hm => hc m (List.mem_cons_of_mem _ hm)) (fun s hm => hin s (.inr (.inr hm)))
        n hn

theorem mem_bodies_withBody (hb : b ∈ d.names) : (b, e) ∈ (d.withBody b e).bodies := by
  induction d with
  | nil => cases hb
  | text u rest ih => exact ih hb
  | placeholder name rest ih => exact ih hb
  | filtered name f rest ih => exact ih hb
  | call name args rest ih => exact ih hb
  | comment body rest ih => exact ih hb
  | block name body rest ihb ih =>
    rw [names, List.mem_append, List.mem_cons] at hb
    rw [withBody, bodies, List.mem_append, List.mem_cons]
    by_cases hn : name = b
    · rw [if_pos hn, hn]
      exact .inr (.inl rfl)
    · rw [if_neg hn]
      rcases hb with hb | he | hb
      · exact .inl (ihb hb)
      · exact absurd he.symm hn
      · exact .inr (.inr (ih hb))

theorem plain_of_replace (hb : b = rootName ∨ b ∈ d.names) (h : (d.replace b e).Plain) :
    e.Plain := by
  rw [replace] at h
  by_cases hr : b = rootName
  · rw [if_pos hr] at h
    exact h
  · rw [if_neg hr] at h
    exact h.of_mem_bodies _ (d.mem_bodies_withBody (hb.resolve_left hr))

end Document

end BlockTemplate
