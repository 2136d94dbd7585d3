import BlockTemplate.Proofs.Document.Edit
import BlockTemplate.Proofs.Section.Edit

/-!
# Sections of plain documents

What a plain document says is found again in the content of its blocks, if no block has a name like
the result of a call.
-/

namespace BlockTemplate

def Part.Named : Part → Prop
  | .char c => c ≠ '\x7b'
  | .var name => Page.isVariableName name = true
  | .child block => Page.isBlockName block = true
  | .result _ => True

namespace Document

variable (d : Document) {t : Text}

def Unnumbered : Prop := ∀ n ∈ d.names, CallId.isMemo (childName n) = false

theorem no_brace_of_clean (h : (d.page t).clean = true) : '\x7b' ∉ t := fun hm =>
  (Markup.plainText_spec (plainText_lead h)).1 ((d.prefix_lead t).subset hm)

theorem named_parts (h : (d.page t).clean = true) : ∀ p ∈ d.parts, p.Named := by
  induction d generalizing t with
  | nil => exact fun p hp => absurd hp List.not_mem_nil
  | text u rest ih =>
    intro p hp
    rcases List.mem_append.mp hp with hp | hp
    · obtain ⟨c, hc, rfl⟩ := List.mem_map.mp hp
      intro he
      exact rest.no_brace_of_clean h (List.mem_append_right t (he ▸ hc))
    · exact ih h p hp
  | placeholder name rest ih =>
    simp only [page, Page.clean, Bool.and_eq_true] at h
    exact List.forall_mem_cons.mpr ⟨h.1.2, ih h.2⟩
  | filtered name f rest ih =>
    simp only [page, Page.clean, Bool.and_eq_true] at h
    exact List.forall_mem_cons.mpr ⟨trivial, ih h.2⟩
  | call name args rest ih =>
    simp only [page, Page.clean, Bool.and_eq_true] at h
    exact List.forall_mem_cons.mpr ⟨trivial, ih h.2⟩
  | comment body rest ih => exact ih h
  | block name body rest _ ih =>
    simp only [page, Page.clean, Bool.and_eq_true] at h
    exact List.forall_mem_cons.mpr ⟨h.1.1.2, ih h.2⟩

theorem mem_variableNames_of_parts {x : Text} (h : .var x ∈ d.parts) : x ∈ d.variableNames := by
  induction d with
  | nil => cases h
  | text u rest ih => exact ih (by simpa [parts] using h)
  | placeholder name rest ih =>
    rcases List.mem_cons.mp h with he | h
    · cases he
      exact List.mem_cons_self
    · exact List.mem_cons_of_mem _ (ih h)
  | filtered name f rest ih => exact List.mem_cons_of_mem _ (ih (by simpa [parts] using h))
  | call name args rest ih => exact List.mem_append_right _ (ih (by simpa [parts] using h))
  | comment body rest ih => exact ih h
  | block name body rest _ ih => exact ih (by simpa [parts] using h)

theorem mem_childNames_of_parts {n : Text} (h : .child n ∈ d.parts) : n ∈ d.childNames := by
  induction d with
  | nil => cases h
  | text u rest ih => exact ih (by simpa [parts] using h)
  | placeholder name rest ih => exact ih (by simpa [parts] using h)
  | filtered name f rest ih => exact ih (by simpa [parts] using h)
  | call name args rest ih => exact ih (by simpa [parts] using h)
  | comment body rest ih => exact ih h
  | block name body rest _ ih =>
    rcases List.mem_cons.mp h with he | h
    · cases he
      exact List.mem_cons_self
    · exact List.mem_cons_of_mem _ (ih h)

theorem mem_calls_of_parts {c : Call} (h : .result c ∈ d.parts) : c ∈ d.calls := by
  induction d with
  | nil => cases h
  | text u rest ih => exact ih (by simpa [parts] using h)
  | placeholder name rest ih => exact ih (by simpa [parts] using h)
  | filtered name f rest ih =>
    rcases List.mem_cons.mp h with he | h
    · cases he
      exact List.mem_cons_self
    · exact List.mem_cons_of_mem _ (ih h)
  | call name args rest ih =>
    rw [calls, filters, inlineCalls, List.mem_append, List.mem_cons]
    rcases List.mem_cons.mp h with he | h
    · cases he
      exact .inr (.inl rfl)
    · exact (List.mem_append.mp (ih h)).imp_right .inr
  | comment body rest ih => exact ih h
  | block name body rest _ ih => exact ih (by simpa [parts] using h)

theorem listed_own (name : Text) : (d.own name).Listed := by
  intro c hc
  rw [own, mem_foldl_addNew]
  exact .inr (d.mem_calls_of_parts hc)

theorem listed_sections (top : Text) : ∀ s ∈ d.sections top, s.Listed := by
  intro s hs
  rcases List.mem_cons.mp hs with rfl | hs
  · exact d.listed_own top
  · rw [inner_eq_map] at hs
    obtain ⟨x, -, rfl⟩ := List.mem_map.mp hs
    exact x.2.listed_own x.1

theorem free_own (h : (d.page []).Plain) {x : Text} (hx : x ∈ d.variableNames) :
    CallId.isMemo x = false ∧ ∀ n ∈ d.childNames, childName n ≠ x := by
  have hu := h.unreserved
  rw [Page.unreserved, d.variableNames_page, d.childNames_page, List.all_eq_true] at hu
  have hfree := hu x hx
  rw [Bool.not_eq_true', Listing.reserved, Bool.or_eq_false_iff, List.any_eq_false] at hfree
  exact ⟨hfree.2, fun n hn => by simpa using hfree.1 n hn⟩

theorem clear_own (name : Text) (h : (d.page []).Plain)
    (hn : ∀ n ∈ d.childNames, CallId.isMemo (childName n) = false) : (d.own name).Clear where
  parts := by
    intro p hp
    have hnamed := d.named_parts h.clean p hp
    cases p with
    | char c => exact hnamed
    | var x => exact ⟨hnamed, (d.free_own h (d.mem_variableNames_of_parts hp)).1⟩
    | child n =>
      exact ⟨Listing.isVariableName_childName hnamed, hn n (d.mem_childNames_of_parts hp)⟩
    | result c => trivial
  listed := d.listed_own name

theorem clear_sections (h : (d.page []).Plain) (hn : d.Unnumbered) (top : Text) :
    ∀ s ∈ d.sections top, s.Clear := by
  intro s hs
  rcases List.mem_cons.mp hs with rfl | hs
  · exact d.clear_own top h fun n hm => hn n (d.childNames_subset n hm)
  · rw [inner_eq_map] at hs
    obtain ⟨x, hx, rfl⟩ := List.mem_map.mp hs
    refine x.2.clear_own x.1 (d.plain_of_mem_bodies h.clean h.within x hx) ?_
    exact fun n hm => hn n (d.names_of_mem_bodies hx n (x.2.childNames_subset n hm))

theorem free_sections (h : (d.page []).Plain) (top : Text) : ∀ s ∈ d.sections top, ∀ x ∈ s.vars,
    CallId.isMemo x = false ∧ ∀ n ∈ s.children, childName n ≠ x := by
  have hown : ∀ (body : Document) (name : Text), (body.page []).Plain → ∀ x ∈ (body.own name).vars,
      CallId.isMemo x = false ∧ ∀ n ∈ (body.own name).children, childName n ≠ x := by
    intro body name hb x hx
    rw [own, mem_foldl_addNew] at hx
    exact body.free_own hb (hx.resolve_left List.not_mem_nil)
  intro s hs
  rcases List.mem_cons.mp hs with rfl | hs
  · exact hown d top h
  · rw [inner_eq_map] at hs
    obtain ⟨x, hx, rfl⟩ := List.mem_map.mp hs
    exact hown x.2 x.1 (d.plain_of_mem_bodies h.clean h.within x hx)

end Document

end BlockTemplate
