import BlockTemplate.Proofs.Document.Append
import BlockTemplate.Proofs.Document.Draft
import BlockTemplate.Proofs.Section.Clear

/-!
# Putting files in

A draft says a document once its files are put in. This document comes about in two ways, by pasting
each file where it is included, or by filling the numbered placeholders one after another, if nothing
in the files is named like one of these.
-/

namespace BlockTemplate

namespace Draft

def expand (f : Text → Document) : Draft → Document
  | .nil => .nil
  | .text t rest => .text t (rest.expand f)
  | .placeholder name rest => .placeholder name (rest.expand f)
  | .filtered name g rest => .filtered name g (rest.expand f)
  | .call name args rest => .call name args (rest.expand f)
  | .inclusion path rest => (f path).append (rest.expand f)
  | .block name body rest => .block name (body.expand f) (rest.expand f)

/-- The document of a file with all files put in, down to a depth. -/
def expansion (library : Text → Draft) : (depth : Nat) → (file : Text) → Document
  | 0, _ => .nil
  | depth + 1, file => (library file).expand (expansion library depth)

end Draft

namespace Document

def fills (f : Text → Document) (d : Document) (is : List Inclusion) : Document :=
  is.foldl (fun d i => d.fill i.name (f i.path)) d

structure Unmarked (d : Document) : Prop where
  vars : ∀ k, d.Unused (Inclusion.numbered k)
  names : ∀ k, Inclusion.numbered k ∉ d.names
  tokens : ∀ k, childName (Inclusion.numbered k) ∉ d.placeholders

/-- A document that says the same wherever it is put in. -/
structure Sturdy (d : Document) : Prop where
  plain : d.Plain
  unnumbered : d.Unnumbered
  unmarked : d.Unmarked

section Sturdy

variable {a b body rest : Document} {name : Text}

theorem Unmarked.of_append (h : (a.append b).Unmarked) : a.Unmarked ∧ b.Unmarked := by
  have habsent := fun k => (h.vars k).absent
  have hbare := fun k => (bare_append a b).mp (h.vars k).bare
  have hnames := h.names
  have htokens := h.tokens
  simp only [placeholders_append, names_append, List.mem_append, not_or] at habsent hnames htokens
  exact ⟨⟨fun k => ⟨(habsent k).1, (hbare k).1⟩, fun k => (hnames k).1, fun k => (htokens k).1⟩,
    ⟨fun k => ⟨(habsent k).2, (hbare k).2⟩, fun k => (hnames k).2, fun k => (htokens k).2⟩⟩

theorem Sturdy.of_append (h : (a.append b).Sturdy) : a.Sturdy ∧ b.Sturdy := by
  obtain ⟨ha, hb⟩ := h.plain.of_append
  obtain ⟨hma, hmb⟩ := h.unmarked.of_append
  have hnames := names_append a b
  refine ⟨⟨ha, fun n hn => h.unnumbered n ?_, hma⟩, ⟨hb, fun n hn => h.unnumbered n ?_, hmb⟩⟩
  · exact hnames ▸ List.mem_append_left _ hn
  · exact hnames ▸ List.mem_append_right _ hn

theorem Unmarked.of_block (h : (block name body rest).Unmarked) : body.Unmarked ∧ rest.Unmarked := by
  have hrest := (Unmarked.of_append (a := .block name body .nil) (b := rest) h).2
  refine ⟨⟨?_, fun k hm => h.names k (List.mem_append_left _ hm),
    fun k hm => h.tokens k (List.mem_append_left _ hm)⟩, hrest⟩
  exact fun k => ⟨fun hm => (h.vars k).absent (List.mem_append_left _ hm), (h.vars k).bare.1⟩

theorem Sturdy.of_block (h : (block name body rest).Sturdy) : body.Sturdy ∧ rest.Sturdy := by
  have hrest := (Sturdy.of_append (a := .block name body .nil) (b := rest) h).2
  have hmem : (name, body) ∈ (block name body rest).bodies :=
    List.mem_append_right _ List.mem_cons_self
  exact ⟨⟨h.plain.of_mem_bodies _ hmem, fun n hn => h.unnumbered n (List.mem_append_left _ hn),
    h.unmarked.of_block.1⟩, hrest⟩

end Sturdy

section Fills

variable (f : Text → Document) (is : List Inclusion)

theorem fills_append (d : Document) (js : List Inclusion) :
    d.fills f (is ++ js) = (d.fills f is).fills f js := List.foldl_append

theorem fills_of_absent {d : Document} (h : ∀ i ∈ is, i.name ∉ d.placeholders) :
    d.fills f is = d := by
  induction is with
  | nil => rfl
  | cons i is ih =>
    rw [fills, List.foldl_cons, d.fill_of_not_mem (h i List.mem_cons_self)]
    exact ih fun j hj => h j (List.mem_cons_of_mem _ hj)

theorem append_fills (a b : Document) :
    (a.append b).fills f is = (a.fills f is).append (b.fills f is) := by
  induction is generalizing a b with
  | nil => rfl
  | cons i is ih =>
    rw [fills, List.foldl_cons, fill_append]
    exact ih (a.fill i.name (f i.path)) (b.fill i.name (f i.path))

theorem fills_behind {d node : Document} (h : ∀ i ∈ is, i.name ∉ node.placeholders) :
    (node.append d).fills f is = node.append (d.fills f is) := by
  rw [append_fills, fills_of_absent f is h]

theorem fills_block (name : Text) (body rest : Document) :
    (block name body rest).fills f is = .block name (body.fills f is) (rest.fills f is) := by
  induction is generalizing body rest with
  | nil => rfl
  | cons i is ih =>
    rw [fills, List.foldl_cons, fill]
    exact ih (body.fill i.name (f i.path)) (rest.fill i.name (f i.path))

variable {f is}

structure Pending (f : Text → Document) (is : List Inclusion) (d : Document) : Prop where
  once : ∀ i ∈ is, d.UsedOnce i.name
  nodup : (is.map (·.name)).Nodup
  numbered : ∀ i ∈ is, ∃ k, i.name = Inclusion.numbered k
  sturdy : ∀ i ∈ is, (f i.path).Sturdy

theorem Pending.unused {d : Document} (h : Pending f is d) {i : Inclusion} (hi : i ∈ is) (k : Nat) :
    (f i.path).Unused (Inclusion.numbered k) := (h.sturdy i hi).unmarked.vars k

theorem Pending.tail {d : Document} {i : Inclusion} (h : Pending f (i :: is) d) :
    Pending f is (d.fill i.name (f i.path)) where
  once := by
    intro j hj
    obtain ⟨k, hk⟩ := h.numbered j (List.mem_cons_of_mem _ hj)
    refine (h.once j (List.mem_cons_of_mem _ hj)).fill ?_ (hk ▸ h.unused List.mem_cons_self k)
    exact fun he => (List.nodup_cons.mp h.nodup).1 (List.mem_map.mpr ⟨j, hj, he⟩)
  nodup := (List.nodup_cons.mp h.nodup).2
  numbered := fun j hj => h.numbered j (List.mem_cons_of_mem _ hj)
  sturdy := fun j hj => h.sturdy j (List.mem_cons_of_mem _ hj)

theorem Pending.names {d : Document} (h : Pending f is d) :
    (d.fills f is).names.Perm (d.names ++ is.flatMap fun i => (f i.path).names) := by
  induction is generalizing d with
  | nil => rw [List.flatMap_nil, List.append_nil]; exact .rfl
  | cons i is ih =>
    rw [fills, List.foldl_cons, List.flatMap_cons, ← List.append_assoc]
    exact (ih h.tail).trans ((d.names_fill (h.once i List.mem_cons_self)).append_right _)

end Fills

end Document

namespace Draft

open Document (Sturdy)

variable (d : Draft) (f : Text → Document)

theorem sturdy_of_expand (h : (d.expand f).Sturdy) : ∀ path ∈ d.paths, (f path).Sturdy := by
  induction d with
  | nil => exact fun path hp => absurd hp List.not_mem_nil
  | text t rest ih => exact ih (Sturdy.of_append (a := .text t .nil) h).2
  | placeholder name rest ih => exact ih (Sturdy.of_append (a := .placeholder name .nil) h).2
  | filtered name g rest ih => exact ih (Sturdy.of_append (a := .filtered name g .nil) h).2
  | call name args rest ih => exact ih (Sturdy.of_append (a := .call name args .nil) h).2
  | inclusion path rest ih =>
    obtain ⟨hpath, hrest⟩ := h.of_append
    exact List.forall_mem_cons.mpr ⟨hpath, ih hrest⟩
  | block name body rest ihb ih =>
    obtain ⟨hbody, hrest⟩ := h.of_block
    exact List.forall_mem_append.mpr ⟨ihb hbody, ih hrest⟩

theorem names_marked_sublist (next : Nat) : (d.marked next).names.Sublist (d.expand f).names := by
  induction d generalizing next with
  | nil => exact .slnil
  | text t rest ih => exact ih next
  | placeholder name rest ih => exact ih next
  | filtered name g rest ih => exact ih next
  | call name args rest ih => exact ih next
  | inclusion path rest ih =>
    rw [expand, Document.names_append]
    exact (ih (next + 1)).trans (List.sublist_append_right _ _)
  | block name body rest ihb ih => exact (ihb next).append ((ih _).cons_cons name)

theorem childNames_marked (next : Nat) :
    ∀ n ∈ (d.marked next).childNames, n ∈ (d.expand f).childNames := by
  induction d generalizing next with
  | nil => exact fun n hn => hn
  | text t rest ih => exact ih next
  | placeholder name rest ih => exact ih next
  | filtered name g rest ih => exact ih next
  | call name args rest ih => exact ih next
  | inclusion path rest ih =>
    rw [expand, Document.childNames_append]
    exact fun n hn => List.mem_append_right _ (ih (next + 1) n hn)
  | block name body rest _ ih =>
    intro n hn
    exact List.mem_cons.mpr ((List.mem_cons.mp hn).imp_right (ih _ n))

theorem variableNames_marked (next : Nat) : ∀ x ∈ (d.marked next).variableNames,
    x ∈ (d.expand f).variableNames ∨ ∃ k, x = Inclusion.numbered k := by
  induction d generalizing next with
  | nil => exact fun x hx => absurd hx List.not_mem_nil
  | text t rest ih => exact ih next
  | placeholder name rest ih =>
    intro x hx
    rcases List.mem_cons.mp hx with rfl | hx
    · exact .inl List.mem_cons_self
    · exact (ih next x hx).imp_left (List.mem_cons_of_mem _)
  | filtered name g rest ih =>
    intro x hx
    rcases List.mem_cons.mp hx with rfl | hx
    · exact .inl List.mem_cons_self
    · exact (ih next x hx).imp_left (List.mem_cons_of_mem _)
  | call name args rest ih =>
    intro x hx
    rcases List.mem_append.mp hx with hx | hx
    · exact .inl (List.mem_append_left _ hx)
    · exact (ih next x hx).imp_left (List.mem_append_right _)
  | inclusion path rest ih =>
    rw [expand, Document.variableNames_append]
    intro x hx
    rcases List.mem_cons.mp hx with rfl | hx
    · exact .inr ⟨next, rfl⟩
    · exact (ih (next + 1) x hx).imp_left (List.mem_append_right _)
  | block name body rest _ ih => exact ih _

theorem placeholders_marked (next : Nat) : ∀ x ∈ (d.marked next).placeholders,
    x ∈ (d.expand f).placeholders ∨ ∃ k, x = Inclusion.numbered k := by
  induction d generalizing next with
  | nil => exact fun x hx => absurd hx List.not_mem_nil
  | text t rest ih => exact ih next
  | placeholder name rest ih =>
    intro x hx
    rcases List.mem_cons.mp hx with rfl | hx
    · exact .inl List.mem_cons_self
    · exact (ih next x hx).imp_left (List.mem_cons_of_mem _)
  | filtered name g rest ih => exact ih next
  | call name args rest ih => exact ih next
  | inclusion path rest ih =>
    rw [expand, Document.placeholders_append]
    intro x hx
    rcases List.mem_cons.mp hx with rfl | hx
    · exact .inr ⟨next, rfl⟩
    · exact (ih (next + 1) x hx).imp_left (List.mem_append_right _)
  | block name body rest ihb ih =>
    intro x hx
    rcases List.mem_append.mp hx with hx | hx
    · exact (ihb next x hx).imp_left (List.mem_append_left _)
    · exact (ih _ x hx).imp_left (List.mem_append_right _)

theorem bare_marked {p : Text} (next : Nat) (h : (d.expand f).Bare p) : (d.marked next).Bare p := by
  induction d generalizing next with
  | nil => trivial
  | text t rest ih => exact ih next h
  | placeholder name rest ih => exact ih next h
  | filtered name g rest ih => exact ⟨h.1, ih next h.2⟩
  | call name args rest ih => exact ⟨h.1, ih next h.2⟩
  | inclusion path rest ih => exact ih (next + 1) ((Document.bare_append _ _).mp h).2
  | block name body rest ihb ih => exact ⟨ihb next h.1, ih _ h.2⟩

theorem clean_marked {t : Text} (next : Nat) (h : ((d.expand f).page t).clean = true) :
    ((d.marked next).page t).clean = true := by
  induction d generalizing next t with
  | nil => exact h
  | text u rest ih => exact ih next h
  | placeholder name rest ih =>
    simp only [expand, marked, Document.page, Page.clean, Bool.and_eq_true] at h ⊢
    exact ⟨h.1, ih next h.2⟩
  | filtered name g rest ih =>
    simp only [expand, marked, Document.page, Page.clean, Bool.and_eq_true] at h ⊢
    exact ⟨h.1, ih next h.2⟩
  | call name args rest ih =>
    simp only [expand, marked, Document.page, Page.clean, Bool.and_eq_true] at h ⊢
    exact ⟨h.1, ih next h.2⟩
  | inclusion path rest ih =>
    obtain ⟨hpath, hrest⟩ := Document.clean_append _ _ h
    simp only [marked, Document.page, Page.clean, Bool.and_eq_true]
    exact ⟨⟨(f path).plainText_of_clean hpath, Inclusion.isVariableName_numbered next⟩,
      ih (next + 1) hrest⟩
  | block name body rest ihb ih =>
    simp only [expand, marked, Document.page, Page.clean, Bool.and_eq_true] at h ⊢
    exact ⟨⟨h.1.1, ihb next h.1.2⟩, ih _ h.2⟩

theorem unreserved_marked (next : Nat) (h : ((d.expand f).page []).unreserved = true) :
    ((d.marked next).page []).unreserved = true := by
  rw [Page.unreserved, Document.variableNames_page, Document.childNames_page, List.all_eq_true]
    at h ⊢
  intro x hx
  rw [Bool.not_eq_true', Listing.reserved, Bool.or_eq_false_iff, List.any_eq_false]
  rcases d.variableNames_marked f next x hx with hx | ⟨k, rfl⟩
  · have hfree := h x hx
    rw [Bool.not_eq_true', Listing.reserved, Bool.or_eq_false_iff, List.any_eq_false] at hfree
    exact ⟨fun n hn => hfree.1 n (d.childNames_marked f next n hn), hfree.2⟩
  · refine ⟨fun n _ he => ?_, Inclusion.isMemo_numbered k⟩
    have hfirst := congrArg (·.headD 'a') (beq_iff_eq.mp he)
    exact absurd hfirst (show ¬ '_' = 't' by decide)

theorem unreservedWithin_marked (next : Nat)
    (h : ((d.expand f).page []).unreservedWithin = true) :
    ((d.marked next).page []).unreservedWithin = true := by
  induction d generalizing next with
  | nil => rfl
  | text t rest ih =>
    rw [expand, Document.page, Document.unreservedWithin_page] at h
    rw [marked, Document.page, Document.unreservedWithin_page]
    exact ih next h
  | placeholder name rest ih => exact ih next h
  | filtered name g rest ih => exact ih next h
  | call name args rest ih => exact ih next h
  | inclusion path rest ih =>
    rw [expand, Document.unreservedWithin_append, Bool.and_eq_true] at h
    exact ih (next + 1) h.2
  | block name body rest ihb ih =>
    simp only [expand, marked, Document.page, Page.unreservedWithin, Bool.and_eq_true] at h ⊢
    exact ⟨⟨body.unreserved_marked f next h.1.1, ihb next h.1.2⟩, ih _ h.2⟩

theorem commentsEnd_marked (next : Nat) : (d.marked next).commentsEnd = true := by
  induction d generalizing next with
  | nil => rfl
  | text t rest ih => exact ih next
  | placeholder name rest ih => exact ih next
  | filtered name g rest ih => exact ih next
  | call name args rest ih => exact ih next
  | inclusion path rest ih => exact ih (next + 1)
  | block name body rest ihb ih =>
    rw [marked, Document.commentsEnd, ihb, ih]
    rfl

theorem plain_marked {d : Draft} {f : Text → Document} (next : Nat) (h : (d.expand f).Plain) :
    (d.marked next).Plain :=
  ⟨⟨d.clean_marked f next h.page.clean, d.unreserved_marked f next h.page.unreserved,
    d.unreservedWithin_marked f next h.page.within⟩, d.commentsEnd_marked next⟩

theorem count_marked (next k : Nat)
    (h : Inclusion.numbered k ∉ (d.expand f).placeholders) :
    (d.marked next).placeholders.count (Inclusion.numbered k) =
      if next ≤ k ∧ k < next + d.paths.length then 1 else 0 := by
  induction d generalizing next with
  | nil => rw [if_neg (by simp only [paths, List.length_nil]; omega)]; rfl
  | text t rest ih => exact ih next h
  | placeholder name rest ih =>
    rw [expand, Document.placeholders, List.mem_cons, not_or] at h
    rw [marked, Document.placeholders, List.count_cons_of_ne (Ne.symm h.1)]
    exact ih next h.2
  | filtered name g rest ih => exact ih next h
  | call name args rest ih => exact ih next h
  | inclusion path rest ih =>
    rw [expand, Document.placeholders_append, List.mem_append, not_or] at h
    rw [marked, Document.placeholders, List.count_cons, ih (next + 1) h.2, paths, List.length_cons]
    by_cases hk : next = k
    · subst hk
      rw [if_pos (beq_self_eq_true _), if_neg (by omega), if_pos (by omega)]
    · have hne : ¬ (Inclusion.numbered next == Inclusion.numbered k) = true := fun he =>
        hk (Inclusion.numbered_inj (beq_iff_eq.mp he))
      rw [if_neg hne, Nat.add_zero]
      by_cases hin : next + 1 ≤ k ∧ k < next + 1 + rest.paths.length
      · rw [if_pos hin, if_pos (by omega)]
      · rw [if_neg hin, if_neg (by omega)]
  | block name body rest ihb ih =>
    rw [expand, Document.placeholders, List.mem_append, not_or] at h
    rw [marked, Document.placeholders, List.count_append, ihb next h.1, ih _ h.2, paths,
      List.length_append]
    by_cases hb : next ≤ k ∧ k < next + body.paths.length
    · rw [if_pos hb, if_neg (by omega), if_pos (by omega)]
    · by_cases hr : next + body.paths.length ≤ k ∧
          k < next + body.paths.length + rest.paths.length
      · rw [if_neg hb, if_pos hr, if_pos (by omega)]
      · rw [if_neg hb, if_neg hr, if_neg (by omega)]

variable {d f}

theorem absent_marked {next k : Nat} (h : (d.expand f).Unmarked)
    (hk : k < next ∨ next + d.paths.length ≤ k) :
    Inclusion.numbered k ∉ (d.marked next).placeholders := by
  rw [← List.count_eq_zero, d.count_marked f next k (h.vars k).absent, if_neg (by omega)]

theorem pending_marked (next : Nat) (h : (d.expand f).Sturdy) :
    Document.Pending f (Inclusion.number next d.paths) (d.marked next) where
  once := by
    intro i hi
    obtain ⟨-, k, hle, hlt, hk⟩ := Inclusion.mem_number hi
    rw [hk]
    refine ⟨?_, d.bare_marked f next (h.unmarked.vars k).bare⟩
    rw [d.count_marked f next k (h.unmarked.vars k).absent, if_pos ⟨hle, hlt⟩]
  nodup := Inclusion.nodup_number next d.paths
  numbered := by
    intro i hi
    obtain ⟨-, k, -, -, hk⟩ := Inclusion.mem_number hi
    exact ⟨k, hk⟩
  sturdy := fun i hi => d.sturdy_of_expand f h i.path (Inclusion.mem_number hi).1

theorem fills_marked (next : Nat) (h : (d.expand f).Unmarked) :
    (d.marked next).fills f (Inclusion.number next d.paths) = d.expand f := by
  have habsent : ∀ {next paths} {node : Document}, node.Unmarked →
      ∀ i ∈ Inclusion.number next paths, i.name ∉ node.placeholders := by
    intro next paths node hnode i hi
    obtain ⟨-, k, -, -, hk⟩ := Inclusion.mem_number hi
    exact hk ▸ (hnode.vars k).absent
  induction d generalizing next with
  | nil => rfl
  | text t rest ih =>
    obtain ⟨hnode, hrest⟩ := Document.Unmarked.of_append (a := .text t .nil) h
    exact (Document.fills_behind f _ (habsent hnode)).trans
      (congrArg (Document.text t) (ih next hrest))
  | placeholder name rest ih =>
    obtain ⟨hnode, hrest⟩ := Document.Unmarked.of_append (a := .placeholder name .nil) h
    exact (Document.fills_behind f _ (habsent hnode)).trans
      (congrArg (Document.placeholder name) (ih next hrest))
  | filtered name g rest ih =>
    obtain ⟨hnode, hrest⟩ := Document.Unmarked.of_append (a := .filtered name g .nil) h
    exact (Document.fills_behind f _ (habsent hnode)).trans
      (congrArg (Document.filtered name g) (ih next hrest))
  | call name args rest ih =>
    obtain ⟨hnode, hrest⟩ := Document.Unmarked.of_append (a := .call name args .nil) h
    exact (Document.fills_behind f _ (habsent hnode)).trans
      (congrArg (Document.call name args) (ih next hrest))
  | inclusion path rest ih =>
    obtain ⟨hpath, hrest⟩ := h.of_append
    have hnot : Inclusion.numbered next ∉ (rest.marked (next + 1)).placeholders :=
      absent_marked hrest (.inl (Nat.lt_succ_self next))
    rw [marked, paths, Inclusion.number, Document.fills, List.foldl_cons, Document.fill, if_pos rfl,
      Document.fill_of_not_mem _ hnot]
    exact (Document.fills_behind f _ (habsent hpath)).trans
      (congrArg (f path).append (ih (next + 1) hrest))
  | block name body rest ihb ih =>
    obtain ⟨hbody, hrest⟩ := h.of_block
    -- The inclusions of the block come first, and those behind it are not in the block any more.
    have hbehind : ∀ i ∈ Inclusion.number next body.paths,
        i.name ∉ (rest.marked (next + body.paths.length)).placeholders := by
      intro i hi
      obtain ⟨-, k, -, hlt, hk⟩ := Inclusion.mem_number hi
      exact hk ▸ absent_marked hrest (.inl hlt)
    rw [marked, paths, Inclusion.number_append, Document.fills_append, Document.fills_block,
      Document.fills_block, ihb next hbody, Document.fills_of_absent f _ hbehind,
      Document.fills_of_absent f _ (habsent hbody), ih _ hrest]
    rfl

end Draft

end BlockTemplate
