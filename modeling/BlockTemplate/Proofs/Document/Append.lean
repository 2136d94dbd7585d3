import BlockTemplate.Proofs.Document.Fill

/-!
# Documents put together

Each of two documents that make a plain document together is plain, and filling the placeholders of one
after another keeps the uses of those that are still to be filled.
-/

namespace BlockTemplate

namespace Document

structure Unused (p : Text) (d : Document) : Prop where
  absent : p ∉ d.placeholders
  bare : d.Bare p

section Append

variable (a b c : Document) {p : Text}

theorem append_assoc : (a.append b).append c = a.append (b.append c) := by
  induction a with
  | nil => rfl
  | text t rest ih => rw [append, append, ih, append]
  | placeholder name rest ih => rw [append, append, ih, append]
  | filtered name f rest ih => rw [append, append, ih, append]
  | call name args rest ih => rw [append, append, ih, append]
  | comment body rest ih => rw [append, append, ih, append]
  | block name body rest _ ih => rw [append, append, ih, append]

theorem placeholders_append : (a.append b).placeholders = a.placeholders ++ b.placeholders := by
  induction a with
  | nil => rfl
  | text t rest ih => exact ih
  | placeholder name rest ih => rw [append, placeholders, ih, placeholders, List.cons_append]
  | filtered name f rest ih => exact ih
  | call name args rest ih => exact ih
  | comment body rest ih => exact ih
  | block name body rest _ ih => rw [append, placeholders, ih, placeholders, List.append_assoc]

theorem bare_append : (a.append b).Bare p ↔ a.Bare p ∧ b.Bare p := by
  induction a with
  | nil => exact (iff_of_eq (true_and _)).symm
  | text t rest ih => exact ih
  | placeholder name rest ih => exact ih
  | filtered name f rest ih => rw [append, Bare, ih, Bare, and_assoc]
  | call name args rest ih => rw [append, Bare, ih, Bare, and_assoc]
  | comment body rest ih => exact ih
  | block name body rest _ ih => rw [append, Bare, ih, Bare, and_assoc]

theorem names_append : (a.append b).names = a.names ++ b.names := by
  rw [← map_name_inner, inner_append, List.map_append, map_name_inner, map_name_inner]

theorem commentsEnd_append : (a.append b).commentsEnd = (a.commentsEnd && b.commentsEnd) := by
  induction a with
  | nil => rfl
  | text t rest ih => exact ih
  | placeholder name rest ih => exact ih
  | filtered name f rest ih => exact ih
  | call name args rest ih => exact ih
  | comment body rest ih => rw [append, commentsEnd, ih, commentsEnd, Bool.and_assoc]
  | block name body rest _ ih => rw [append, commentsEnd, ih, commentsEnd, Bool.and_assoc]

theorem unreservedWithin_page (t : Text) :
    (a.page t).unreservedWithin = (a.page []).unreservedWithin := by
  induction a generalizing t with
  | nil => rfl
  | text u rest ih => rw [page, ih, page, ih ([] ++ u)]
  | placeholder name rest ih => rfl
  | filtered name f rest ih => rfl
  | call name args rest ih => rfl
  | comment body rest ih => exact ih t
  | block name body rest _ ih => rfl

theorem unreservedWithin_append : ((a.append b).page []).unreservedWithin =
    ((a.page []).unreservedWithin && (b.page []).unreservedWithin) := by
  induction a with
  | nil => rfl
  | text t rest ih =>
    rw [append, page, unreservedWithin_page, ih, page, unreservedWithin_page rest ([] ++ t)]
  | placeholder name rest ih => exact ih
  | filtered name f rest ih => exact ih
  | call name args rest ih => exact ih
  | comment body rest ih => exact ih
  | block name body rest _ ih =>
    rw [append, page, page, Page.unreservedWithin, Page.unreservedWithin, ih, ← Bool.and_assoc]

theorem plainText_of_part {t u : Text} (h : Page.plainText u = true) (ht : t <:+: u) :
    Page.plainText t = true := by
  obtain ⟨hbrace, htag, hcall⟩ := Markup.plainText_spec h
  rw [Page.plainText, Bool.and_eq_true, Bool.and_eq_true, Bool.not_eq_true', Bool.not_eq_true',
    Bool.not_eq_true', decide_eq_false_iff_not, decide_eq_false_iff_not]
  refine ⟨⟨?_, fun hin => htag (hin.trans ht)⟩, fun hin => hcall (hin.trans ht)⟩
  rw [← Bool.not_eq_true, List.contains_iff_mem]
  exact fun hm => hbrace (ht.subset hm)

theorem plainText_of_clean {t : Text} (h : (a.page t).clean = true) : Page.plainText t = true :=
  plainText_of_part (plainText_lead h) (a.prefix_lead t).isInfix

theorem clean_of_append {t u : Text} (h : (a.page (t ++ u)).clean = true) :
    (a.page u).clean = true := by
  have hpart : u <:+: t ++ u := (List.suffix_append t u).isInfix
  induction a generalizing u with
  | nil => exact plainText_of_part h hpart
  | text v rest ih =>
    rw [page, List.append_assoc] at h
    exact ih h (List.suffix_append t (u ++ v)).isInfix
  | placeholder name rest ih =>
    simp only [page, Page.clean, Bool.and_eq_true] at h ⊢
    exact ⟨⟨plainText_of_part h.1.1 hpart, h.1.2⟩, h.2⟩
  | filtered name f rest ih =>
    simp only [page, Page.clean, Bool.and_eq_true] at h ⊢
    exact ⟨⟨⟨plainText_of_part h.1.1.1 hpart, h.1.1.2⟩, h.1.2⟩, h.2⟩
  | call name args rest ih =>
    simp only [page, Page.clean, Bool.and_eq_true] at h ⊢
    exact ⟨⟨⟨plainText_of_part h.1.1.1 hpart, h.1.1.2⟩, h.1.2⟩, h.2⟩
  | comment body rest ih => exact ih h hpart
  | block name body rest _ ih =>
    simp only [page, Page.clean, Bool.and_eq_true] at h ⊢
    exact ⟨⟨⟨plainText_of_part h.1.1.1 hpart, h.1.1.2⟩, h.1.2⟩, h.2⟩

theorem clean_append {t : Text} (h : ((a.append b).page t).clean = true) :
    (a.page t).clean = true ∧ (b.page []).clean = true := by
  induction a generalizing t with
  | nil => exact ⟨b.plainText_of_clean h, b.clean_of_append (by rwa [List.append_nil])⟩
  | text u rest ih => exact ih h
  | placeholder name rest ih =>
    simp only [append, page, Page.clean, Bool.and_eq_true] at h ⊢
    obtain ⟨hrest, hb⟩ := ih h.2
    exact ⟨⟨h.1, hrest⟩, hb⟩
  | filtered name f rest ih =>
    simp only [append, page, Page.clean, Bool.and_eq_true] at h ⊢
    obtain ⟨hrest, hb⟩ := ih h.2
    exact ⟨⟨h.1, hrest⟩, hb⟩
  | call name args rest ih =>
    simp only [append, page, Page.clean, Bool.and_eq_true] at h ⊢
    obtain ⟨hrest, hb⟩ := ih h.2
    exact ⟨⟨h.1, hrest⟩, hb⟩
  | comment body rest ih => exact ih h
  | block name body rest _ ih =>
    simp only [append, page, Page.clean, Bool.and_eq_true] at h ⊢
    obtain ⟨hrest, hb⟩ := ih h.2
    exact ⟨⟨h.1, hrest⟩, hb⟩

variable {a b}

theorem unreserved_of_subset (h : (a.page []).unreserved = true)
    (hv : ∀ x ∈ b.variableNames, x ∈ a.variableNames) (hc : ∀ n ∈ b.childNames, n ∈ a.childNames) :
    (b.page []).unreserved = true := by
  rw [Page.unreserved, variableNames_page, childNames_page, List.all_eq_true] at h ⊢
  intro x hx
  have hfree := h x (hv x hx)
  rw [Bool.not_eq_true', Listing.reserved, Bool.or_eq_false_iff, List.any_eq_false] at hfree ⊢
  exact ⟨fun n hn => hfree.1 n (hc n hn), hfree.2⟩

theorem Plain.of_append (h : (a.append b).Plain) : a.Plain ∧ b.Plain := by
  obtain ⟨ha, hb⟩ := clean_append a b h.page.clean
  have hwithin := h.page.within
  have hcomments := h.comments
  rw [unreservedWithin_append, Bool.and_eq_true] at hwithin
  rw [commentsEnd_append, Bool.and_eq_true] at hcomments
  have hv := variableNames_append a b
  have hc := childNames_append a b
  refine ⟨⟨⟨ha, ?_, hwithin.1⟩, hcomments.1⟩, ⟨⟨hb, ?_, hwithin.2⟩, hcomments.2⟩⟩
  · refine unreserved_of_subset h.page.unreserved ?_ ?_
    · exact fun x hx => hv ▸ List.mem_append_left _ hx
    · exact fun n hn => hc ▸ List.mem_append_left _ hn
  · refine unreserved_of_subset h.page.unreserved ?_ ?_
    · exact fun x hx => hv ▸ List.mem_append_right _ hx
    · exact fun n hn => hc ▸ List.mem_append_right _ hn

end Append

section Fill

variable (d : Document) {p q : Text} {e : Document}

theorem count_placeholders_fill (hq : q ≠ p) (he : q ∉ e.placeholders) :
    (d.fill p e).placeholders.count q = d.placeholders.count q := by
  induction d with
  | nil => rfl
  | text t rest ih => exact ih
  | placeholder name rest ih =>
    rw [fill, placeholders]
    by_cases hn : name = p
    · have hne : name ≠ q := fun heq => hq (heq.symm.trans hn)
      rw [if_pos hn, placeholders_append, List.count_append, List.count_eq_zero.mpr he, ih,
        Nat.zero_add, List.count_cons_of_ne hne]
    · rw [if_neg hn, placeholders, List.count_cons, ih, List.count_cons]
  | filtered name f rest ih => exact ih
  | call name args rest ih => exact ih
  | comment body rest ih => exact ih
  | block name body rest ihb ih =>
    rw [fill, placeholders, List.count_append, ihb, ih, placeholders, List.count_append]

theorem bare_fill (h : d.Bare q) (he : e.Bare q) : (d.fill p e).Bare q := by
  induction d with
  | nil => trivial
  | text t rest ih => exact ih h
  | placeholder name rest ih =>
    rw [fill]
    split
    · exact (bare_append _ _).mpr ⟨he, ih h⟩
    · exact ih h
  | filtered name f rest ih => exact ⟨h.1, ih h.2⟩
  | call name args rest ih => exact ⟨h.1, ih h.2⟩
  | comment body rest ih => exact ih h
  | block name body rest ihb ih => exact ⟨ihb h.1, ih h.2⟩

variable {d}

theorem UsedOnce.fill (h : d.UsedOnce q) (hq : q ≠ p) (he : e.Unused q) :
    (d.fill p e).UsedOnce q :=
  ⟨(d.count_placeholders_fill hq he.absent).trans h.once, d.bare_fill h.bare he.bare⟩

theorem Unused.fill (h : d.Unused q) (hq : q ≠ p) (he : e.Unused q) : (d.fill p e).Unused q := by
  refine ⟨?_, d.bare_fill h.bare he.bare⟩
  rw [← List.count_eq_zero, d.count_placeholders_fill hq he.absent, List.count_eq_zero]
  exact h.absent

theorem fill_append (a b : Document) : (a.append b).fill p e = (a.fill p e).append (b.fill p e) := by
  induction a with
  | nil => rfl
  | text t rest ih => rw [append, Document.fill, ih, Document.fill, append]
  | placeholder name rest ih =>
    rw [append, Document.fill, Document.fill]
    split
    · rw [ih, append_assoc]
    · rw [ih, append]
  | filtered name f rest ih => rw [append, Document.fill, ih, Document.fill, append]
  | call name args rest ih => rw [append, Document.fill, ih, Document.fill, append]
  | comment body rest ih => rw [append, Document.fill, ih, Document.fill, append]
  | block name body rest _ ih => rw [append, Document.fill, ih, Document.fill, append]

end Fill

end Document

end BlockTemplate
