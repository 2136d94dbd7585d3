import BlockTemplate.Proofs.Document.Edit

/-!
# Filling a placeholder

A document is put in place of a placeholder. If the placeholder is used once, this changes the section
it stands in and adds the sections of the blocks that come with the document.
-/

namespace BlockTemplate

namespace Document

def append : Document → (e : Document) → Document
  | .nil, e => e
  | .text t rest, e => .text t (rest.append e)
  | .placeholder name rest, e => .placeholder name (rest.append e)
  | .filtered name f rest, e => .filtered name f (rest.append e)
  | .call name args rest, e => .call name args (rest.append e)
  | .comment body rest, e => .comment body (rest.append e)
  | .block name body rest, e => .block name body (rest.append e)

def fill : Document → (p : Text) → (e : Document) → Document
  | .nil, _, _ => .nil
  | .text t rest, p, e => .text t (rest.fill p e)
  | .placeholder name rest, p, e =>
    if name = p then e.append (rest.fill p e) else .placeholder name (rest.fill p e)
  | .filtered name f rest, p, e => .filtered name f (rest.fill p e)
  | .call name args rest, p, e => .call name args (rest.fill p e)
  | .comment body rest, p, e => .comment body (rest.fill p e)
  | .block name body rest, p, e => .block name (body.fill p e) (rest.fill p e)

def placeholders : Document → List Text
  | .nil => []
  | .text _ rest => rest.placeholders
  | .placeholder name rest => name :: rest.placeholders
  | .filtered _ _ rest => rest.placeholders
  | .call _ _ rest => rest.placeholders
  | .comment _ rest => rest.placeholders
  | .block _ body rest => body.placeholders ++ rest.placeholders

def Bare (p : Text) : Document → Prop
  | .nil => True
  | .text _ rest => rest.Bare p
  | .placeholder _ rest => rest.Bare p
  | .filtered name _ rest => name ≠ p ∧ rest.Bare p
  | .call _ args rest => p ∉ args.flatMap Page.argumentNames ∧ rest.Bare p
  | .comment _ rest => rest.Bare p
  | .block _ body rest => body.Bare p ∧ rest.Bare p

/-- The variable is used once in the document, by a placeholder without a filter. -/
structure UsedOnce (p : Text) (d : Document) : Prop where
  once : d.placeholders.count p = 1
  bare : d.Bare p

section Append

variable (d e : Document)

theorem parts_append : (d.append e).parts = d.parts ++ e.parts := by
  induction d with
  | nil => rfl
  | text t rest ih => rw [append, parts, ih, parts, List.append_assoc]
  | placeholder name rest ih => rw [append, parts, ih, parts, List.cons_append]
  | filtered name f rest ih => rw [append, parts, ih, parts, List.cons_append]
  | call name args rest ih => rw [append, parts, ih, parts, List.cons_append]
  | comment body rest ih => rw [append, parts, ih, parts]
  | block name body rest _ ih => rw [append, parts, ih, parts, List.cons_append]

theorem variableNames_append : (d.append e).variableNames = d.variableNames ++ e.variableNames := by
  induction d with
  | nil => rfl
  | text t rest ih => exact ih
  | placeholder name rest ih => rw [append, variableNames, ih, variableNames, List.cons_append]
  | filtered name f rest ih => rw [append, variableNames, ih, variableNames, List.cons_append]
  | call name args rest ih => rw [append, variableNames, ih, variableNames, List.append_assoc]
  | comment body rest ih => exact ih
  | block name body rest _ ih => exact ih

theorem filters_append : (d.append e).filters = d.filters ++ e.filters := by
  induction d with
  | nil => rfl
  | text t rest ih => exact ih
  | placeholder name rest ih => exact ih
  | filtered name f rest ih => rw [append, filters, ih, filters, List.cons_append]
  | call name args rest ih => exact ih
  | comment body rest ih => exact ih
  | block name body rest _ ih => exact ih

theorem inlineCalls_append : (d.append e).inlineCalls = d.inlineCalls ++ e.inlineCalls := by
  induction d with
  | nil => rfl
  | text t rest ih => exact ih
  | placeholder name rest ih => exact ih
  | filtered name f rest ih => exact ih
  | call name args rest ih => rw [append, inlineCalls, ih, inlineCalls, List.cons_append]
  | comment body rest ih => exact ih
  | block name body rest _ ih => exact ih

theorem childNames_append : (d.append e).childNames = d.childNames ++ e.childNames := by
  induction d with
  | nil => rfl
  | text t rest ih => exact ih
  | placeholder name rest ih => exact ih
  | filtered name f rest ih => exact ih
  | call name args rest ih => exact ih
  | comment body rest ih => exact ih
  | block name body rest _ ih => rw [append, childNames, ih, childNames, List.cons_append]

theorem bodies_append : (d.append e).bodies = d.bodies ++ e.bodies := by
  induction d with
  | nil => rfl
  | text t rest ih => exact ih
  | placeholder name rest ih => exact ih
  | filtered name f rest ih => exact ih
  | call name args rest ih => exact ih
  | comment body rest ih => exact ih
  | block name body rest _ ih =>
    rw [append, bodies, ih, bodies, List.append_assoc, List.cons_append]

theorem inner_append : (d.append e).inner = d.inner ++ e.inner := by
  rw [inner_eq_map, bodies_append, List.map_append, ← inner_eq_map, ← inner_eq_map]

end Append

section Fill

variable (d : Document) {p : Text} {e : Document}

theorem fill_of_not_mem (h : p ∉ d.placeholders) : d.fill p e = d := by
  induction d with
  | nil => rfl
  | text t rest ih => rw [fill, ih h]
  | placeholder name rest ih =>
    rw [placeholders, List.mem_cons, not_or] at h
    rw [fill, if_neg fun he => h.1 he.symm, ih h.2]
  | filtered name f rest ih => rw [fill, ih h]
  | call name args rest ih => rw [fill, ih h]
  | comment body rest ih => rw [fill, ih h]
  | block name body rest ihb ih =>
    rw [placeholders, List.mem_append, not_or] at h
    rw [fill, ihb h.1, ih h.2]

theorem own_fill_of_not_mem {name : Text} (h : .var p ∉ d.parts) :
    (d.fill p e).own name = d.own name := by
  have hall : (d.fill p e).parts = d.parts ∧ (d.fill p e).variableNames = d.variableNames ∧
      (d.fill p e).filters = d.filters ∧ (d.fill p e).inlineCalls = d.inlineCalls ∧
      (d.fill p e).childNames = d.childNames := by
    induction d with
    | nil => exact ⟨rfl, rfl, rfl, rfl, rfl⟩
    | text t rest ih =>
      obtain ⟨hp, hrest⟩ := ih (by simpa [parts] using h)
      exact ⟨congrArg (_ ++ ·) hp, hrest⟩
    | placeholder name rest ih =>
      rw [parts, List.mem_cons, not_or] at h
      obtain ⟨hp, hv, hrest⟩ := ih h.2
      rw [fill, if_neg fun he => h.1 (congrArg Part.var he).symm]
      exact ⟨congrArg (_ :: ·) hp, congrArg (_ :: ·) hv, hrest⟩
    | filtered name f rest ih =>
      obtain ⟨hp, hv, hf, hrest⟩ := ih (by simpa [parts] using h)
      exact ⟨congrArg (_ :: ·) hp, congrArg (_ :: ·) hv, congrArg (_ :: ·) hf, hrest⟩
    | call name args rest ih =>
      obtain ⟨hp, hv, hf, hi, hc⟩ := ih (by simpa [parts] using h)
      exact ⟨congrArg (_ :: ·) hp, congrArg (_ ++ ·) hv, hf, congrArg (_ :: ·) hi, hc⟩
    | comment body rest ih => exact ih h
    | block name body rest _ ih =>
      obtain ⟨hp, hv, hf, hi, hc⟩ := ih (by simpa [parts] using h)
      exact ⟨congrArg (_ :: ·) hp, hv, hf, hi, congrArg (_ :: ·) hc⟩
  obtain ⟨hp, hv, hf, hi, hc⟩ := hall
  rw [own, own, calls, calls, hp, hv, hf, hi, hc]

def fillPart (p : Text) (e : Document) (q : Part) : List Part := if q = .var p then e.parts else [q]

theorem parts_fill : (d.fill p e).parts = d.parts.flatMap (fillPart p e) := by
  have hchars : ∀ t : Text, (t.map Part.char).flatMap (fillPart p e) = t.map .char := by
    intro t
    induction t with
    | nil => rfl
    | cons c t ih =>
      rw [List.map_cons, List.flatMap_cons, ih, fillPart, if_neg (by simp)]
      rfl
  induction d with
  | nil => rfl
  | text t rest ih => rw [fill, parts, ih, parts, List.flatMap_append, hchars]
  | placeholder name rest ih =>
    rw [fill, parts, List.flatMap_cons, fillPart, ← ih]
    by_cases hn : name = p
    · rw [if_pos hn, if_pos (congrArg _ hn), parts_append]
    · rw [if_neg hn, if_neg fun he => hn (Part.var.inj he)]
      rfl
  | filtered name f rest ih =>
    rw [fill, parts, ih, parts, List.flatMap_cons, fillPart, if_neg (by simp)]
    rfl
  | call name args rest ih =>
    rw [fill, parts, ih, parts, List.flatMap_cons, fillPart, if_neg (by simp)]
    rfl
  | comment body rest ih => rw [fill, parts, ih, parts]
  | block name body rest _ ih =>
    rw [fill, parts, ih, parts, List.flatMap_cons, fillPart, if_neg (by simp)]
    rfl

def fillName (p : Text) (e : Document) (x : Text) : List Text :=
  if x = p then e.variableNames else [x]

theorem flatMap_fillName {xs : List Text} (h : p ∉ xs) : xs.flatMap (fillName p e) = xs := by
  induction xs with
  | nil => rfl
  | cons x xs ih =>
    rw [List.mem_cons, not_or] at h
    rw [List.flatMap_cons, ih h.2, fillName, if_neg fun he => h.1 he.symm]
    rfl

theorem variableNames_fill (h : d.Bare p) :
    (d.fill p e).variableNames = d.variableNames.flatMap (fillName p e) := by
  induction d with
  | nil => rfl
  | text t rest ih => exact ih h
  | placeholder name rest ih =>
    rw [fill, variableNames, List.flatMap_cons, fillName, ← ih h]
    by_cases hn : name = p
    · rw [if_pos hn, if_pos hn, variableNames_append]
    · rw [if_neg hn, if_neg hn]
      rfl
  | filtered name f rest ih =>
    rw [fill, variableNames, ih h.2, variableNames, List.flatMap_cons, fillName, if_neg h.1]
    rfl
  | call name args rest ih =>
    rw [fill, variableNames, ih h.2, variableNames, List.flatMap_append, flatMap_fillName h.1]
  | comment body rest ih => exact ih h
  | block name body rest _ ih => exact ih h.2

theorem mem_placeholders_of_parts (h : .var p ∈ d.parts) : p ∈ d.placeholders := by
  induction d with
  | nil => cases h
  | text u rest ih => exact ih (by simpa [parts] using h)
  | placeholder name rest ih =>
    rcases List.mem_cons.mp h with he | h
    · cases he
      exact List.mem_cons_self
    · exact List.mem_cons_of_mem _ (ih h)
  | filtered name f rest ih => exact ih (by simpa [parts] using h)
  | call name args rest ih => exact ih (by simpa [parts] using h)
  | comment body rest ih => exact ih h
  | block name body rest _ ih => exact List.mem_append_right _ (ih (by simpa [parts] using h))

theorem parts_of_mem_variableNames (hb : d.Bare p) (h : p ∈ d.variableNames) : .var p ∈ d.parts := by
  induction d with
  | nil => cases h
  | text u rest ih => exact List.mem_append_right _ (ih hb h)
  | placeholder name rest ih =>
    rcases List.mem_cons.mp h with rfl | h
    · exact List.mem_cons_self
    · exact List.mem_cons_of_mem _ (ih hb h)
  | filtered name f rest ih =>
    rcases List.mem_cons.mp h with he | h
    · exact absurd he.symm hb.1
    · exact List.mem_cons_of_mem _ (ih hb.2 h)
  | call name args rest ih =>
    exact List.mem_cons_of_mem _ (ih hb.2 ((List.mem_append.mp h).resolve_left hb.1))
  | comment body rest ih => exact ih hb h
  | block name body rest _ ih => exact List.mem_cons_of_mem _ (ih hb.2 h)

theorem mem_vars_own {name x : Text} : x ∈ (d.own name).vars ↔ x ∈ d.variableNames := by
  rw [own, mem_foldl_addNew]
  simp

theorem mem_calls_own {name : Text} {c : Call} : c ∈ (d.own name).calls ↔ c ∈ d.calls := by
  rw [own, mem_foldl_addNew]
  simp

theorem not_mem_vars_of_parts {name : Text} (hb : d.Bare p) (h : .var p ∉ d.parts) :
    p ∉ (d.own name).vars := fun hm => h (d.parts_of_mem_variableNames hb (d.mem_vars_own.mp hm))

theorem not_mem_vars_own (hb : d.Bare p) (h : p ∉ d.placeholders) (name : Text) :
    p ∉ (d.own name).vars :=
  d.not_mem_vars_of_parts hb fun hm => h (d.mem_placeholders_of_parts hm)

theorem not_mem_vars_inner (hb : d.Bare p) (h : p ∉ d.placeholders) : ∀ s ∈ d.inner, p ∉ s.vars := by
  induction d with
  | nil => exact fun s hs => absurd hs List.not_mem_nil
  | text t rest ih => exact ih hb h
  | placeholder name rest ih => exact ih hb fun hm => h (List.mem_cons_of_mem _ hm)
  | filtered name f rest ih => exact ih hb.2 h
  | call name args rest ih => exact ih hb.2 h
  | comment body rest ih => exact ih hb h
  | block name body rest ihb ih =>
    rw [placeholders, List.mem_append, not_or] at h
    intro s hs
    rw [inner, List.mem_append, List.mem_cons] at hs
    rcases hs with hs | rfl | hs
    · exact ihb hb.1 h.1 s hs
    · exact body.not_mem_vars_own hb.1 h.1 name
    · exact ih hb.2 h.2 s hs

structure Place (p : Text) (S : List Section) (filled : Document → List Section) (name : Text)
    (body : Document) (others : List Section) : Prop where
  here : S.Perm (body.own name :: others)
  filled : ∀ e, (filled e).Perm ((body.fill p e).own name :: (others ++ e.inner))
  apart : ∀ s ∈ others, p ∉ s.vars
  bare : body.Bare p
  once : body.parts.count (.var p) = 1

structure Open (p : Text) (d : Document) : Prop where
  once : d.parts.count (.var p) = 1
  apart : ∀ s ∈ d.inner, p ∉ s.vars
  filled : ∀ e, (d.fill p e).inner.Perm (d.inner ++ e.inner)

structure Closed (p : Text) (d : Document) (name : Text) (body : Document) (others : List Section) :
    Prop where
  none : .var p ∉ d.parts
  place : Place p d.inner (fun e => (d.fill p e).inner) name body others

theorem count_parts_text (t : Text) : (t.map Part.char ++ d.parts).count (.var p) =
    d.parts.count (.var p) := by
  rw [List.count_append, List.count_eq_zero.mpr (by simp), Nat.zero_add]

theorem inner_fill_after (name : Text) (inside rest e : Document) (hin : p ∉ inside.placeholders) :
    ((block name inside rest).fill p e).inner =
      inside.inner ++ inside.own name :: (rest.fill p e).inner := by
  rw [fill, inner, inside.fill_of_not_mem hin]

theorem inner_fill_within (name : Text) (inside rest e : Document) (hout : p ∉ rest.placeholders) :
    ((block name inside rest).fill p e).inner =
      (inside.fill p e).inner ++ (inside.fill p e).own name :: rest.inner := by
  rw [fill, inner, rest.fill_of_not_mem hout]

section Block

variable {inside rest : Document} (name : Text)

theorem Open.after (h : rest.Open p) (hbare : inside.Bare p) (hin : p ∉ inside.placeholders) :
    (block name inside rest).Open p where
  once := by simpa [parts] using h.once
  apart := by
    rw [inner, List.forall_mem_append, List.forall_mem_cons]
    exact ⟨inside.not_mem_vars_inner hbare hin, inside.not_mem_vars_own hbare hin name, h.apart⟩
  filled := by
    intro e
    rw [inner_fill_after name inside rest e hin, inner, List.append_assoc, List.cons_append]
    exact ((h.filled e).cons _).append_left _

theorem Closed.after {b : Text} {body : Document} {others : List Section}
    (h : rest.Closed p b body others) (hbare : inside.Bare p) (hin : p ∉ inside.placeholders) :
    (block name inside rest).Closed p b body (inside.inner ++ inside.own name :: others) where
  none := by simpa [parts] using h.none
  place := by
    refine ⟨?_, ?_, ?_, h.place.bare, h.place.once⟩
    · rw [inner]
      refine ((h.place.here.cons _).append_left _).trans ?_
      exact ((List.Perm.swap _ _ _).append_left _).trans List.perm_middle
    · intro e
      rw [inner_fill_after name inside rest e hin]
      refine (((h.place.filled e).cons _).append_left _).trans ?_
      rw [List.append_assoc, List.cons_append]
      exact ((List.Perm.swap _ _ _).append_left _).trans List.perm_middle
    · rw [List.forall_mem_append, List.forall_mem_cons]
      exact ⟨inside.not_mem_vars_inner hbare hin, inside.not_mem_vars_own hbare hin name,
        h.place.apart⟩

theorem not_mem_parts_block (hout : p ∉ rest.placeholders) :
    .var p ∉ (block name inside rest).parts := fun hm =>
  hout (rest.mem_placeholders_of_parts (by simpa [parts] using hm))

theorem Open.within (h : inside.Open p) (hbare : inside.Bare p) (hrest : rest.Bare p)
    (hout : p ∉ rest.placeholders) :
    (block name inside rest).Closed p name inside (inside.inner ++ rest.inner) where
  none := not_mem_parts_block name hout
  place := by
    refine ⟨List.perm_middle, ?_, ?_, hbare, h.once⟩
    · intro e
      rw [inner_fill_within name inside rest e hout]
      refine List.perm_middle.trans (List.Perm.cons _ ?_)
      refine ((h.filled e).append_right _).trans ?_
      rw [List.append_assoc, List.append_assoc]
      exact List.perm_append_comm.append_left _
    · rw [List.forall_mem_append]
      exact ⟨h.apart, rest.not_mem_vars_inner hrest hout⟩

theorem Closed.within {b : Text} {body : Document} {others : List Section}
    (h : inside.Closed p b body others) (hbare : inside.Bare p) (hrest : rest.Bare p)
    (hout : p ∉ rest.placeholders) :
    (block name inside rest).Closed p b body (others ++ inside.own name :: rest.inner) where
  none := not_mem_parts_block name hout
  place := by
    refine ⟨?_, ?_, ?_, h.place.bare, h.place.once⟩
    · rw [inner]
      exact h.place.here.append_right _
    · intro e
      rw [inner_fill_within name inside rest e hout, inside.own_fill_of_not_mem h.none]
      refine ((h.place.filled e).append_right _).trans ?_
      rw [List.cons_append, List.append_assoc, List.append_assoc]
      exact (List.perm_append_comm.append_left _).cons _
    · rw [List.forall_mem_append, List.forall_mem_cons]
      exact ⟨h.place.apart, inside.not_mem_vars_of_parts hbare h.none,
        rest.not_mem_vars_inner hrest hout⟩

end Block

theorem open_or_closed (h : d.UsedOnce p) :
    d.Open p ∨ ∃ name body others, d.Closed p name body others := by
  obtain ⟨hone, hbare⟩ := h
  induction d with
  | nil => cases hone
  | text t rest ih =>
    rcases ih hone hbare with ho | ⟨name, body, others, hc⟩
    · exact .inl ⟨(rest.count_parts_text t).trans ho.once, ho.apart, ho.filled⟩
    · exact .inr ⟨name, body, others, by simpa [parts] using hc.none, hc.place⟩
  | placeholder name rest ih =>
    by_cases hn : name = p
    · subst hn
      rw [placeholders, List.count_cons_self, Nat.add_eq_right, List.count_eq_zero] at hone
      have hparts : .var name ∉ rest.parts := fun hm => hone (rest.mem_placeholders_of_parts hm)
      refine .inl ⟨?_, rest.not_mem_vars_inner hbare hone, ?_⟩
      · rw [parts, List.count_cons_self, List.count_eq_zero.mpr hparts]
      · intro e
        rw [fill, if_pos rfl, rest.fill_of_not_mem hone, inner_append, inner]
        exact List.perm_append_comm
    · rw [placeholders, List.count_cons_of_ne fun he => hn he] at hone
      have hfill : ∀ e, ((placeholder name rest).fill p e).inner = (rest.fill p e).inner := by
        intro e
        rw [fill, if_neg hn, inner]
      rcases ih hone hbare with ho | ⟨b, body, others, hc⟩
      · refine .inl ⟨?_, ho.apart, fun e => hfill e ▸ ho.filled e⟩
        rw [parts, List.count_cons_of_ne (by simpa using hn)]
        exact ho.once
      · refine .inr ⟨b, body, others, ?_, hc.place.here, fun e => hfill e ▸ hc.place.filled e,
          hc.place.apart, hc.place.bare, hc.place.once⟩
        rw [parts, List.mem_cons, not_or]
        exact ⟨fun he => hn (Part.var.inj he).symm, hc.none⟩
  | filtered name f rest ih =>
    rcases ih hone hbare.2 with ho | ⟨b, body, others, hc⟩
    · exact .inl ⟨by simpa [parts] using ho.once, ho.apart, ho.filled⟩
    · exact .inr ⟨b, body, others, by simpa [parts] using hc.none, hc.place⟩
  | call name args rest ih =>
    rcases ih hone hbare.2 with ho | ⟨b, body, others, hc⟩
    · exact .inl ⟨by simpa [parts] using ho.once, ho.apart, ho.filled⟩
    · exact .inr ⟨b, body, others, by simpa [parts] using hc.none, hc.place⟩
  | comment text rest ih =>
    rcases ih hone hbare with ho | ⟨b, body, others, hc⟩
    · exact .inl ⟨ho.once, ho.apart, ho.filled⟩
    · exact .inr ⟨b, body, others, hc.none, hc.place⟩
  -- The one use lies behind the block or in it, and there outside or within inner blocks.
  | block name inside rest ihb ih =>
    rw [placeholders, List.count_append] at hone
    rcases Nat.add_eq_one_iff.mp hone with ⟨hin, hout⟩ | ⟨hin, hout⟩
    · rw [List.count_eq_zero] at hin
      rcases ih hout hbare.2 with ho | ⟨b, body, others, hc⟩
      · exact .inl (ho.after name hbare.1 hin)
      · exact .inr ⟨b, body, _, hc.after name hbare.1 hin⟩
    · rw [List.count_eq_zero] at hout
      rcases ihb hin hbare.1 with ho | ⟨b, body, others, hc⟩
      · exact .inr ⟨name, inside, _, ho.within name hbare.1 hbare.2 hout⟩
      · exact .inr ⟨b, body, _, hc.within name hbare.1 hbare.2 hout⟩

theorem exists_place (h : d.UsedOnce p) (top : Text) : ∃ name body others,
    Place p (d.sections top) (fun e => (d.fill p e).sections top) name body others := by
  rcases d.open_or_closed h with ho | ⟨name, body, others, hc⟩
  · refine ⟨top, d, d.inner, .rfl, ?_, ho.apart, h.bare, ho.once⟩
    exact fun e => (ho.filled e).cons _
  · refine ⟨name, body, d.own top :: others, ?_, ?_, ?_, hc.place.bare, hc.place.once⟩
    · exact (hc.place.here.cons _).trans (.swap _ _ _)
    · intro e
      rw [sections, d.own_fill_of_not_mem hc.none]
      exact ((hc.place.filled e).cons _).trans (.swap _ _ _)
    · exact List.forall_mem_cons.mpr ⟨d.not_mem_vars_of_parts h.bare hc.none, hc.place.apart⟩

theorem names_fill (h : d.UsedOnce p) : (d.fill p e).names.Perm (d.names ++ e.names) := by
  obtain ⟨name, body, others, hp⟩ := d.exists_place h []
  have hold := hp.here.map (·.name)
  have hnew := (hp.filled e).map (·.name)
  rw [map_name_sections] at hold hnew
  have hadd : (name :: (others ++ e.inner).map (·.name)).Perm ([] :: d.names ++ e.names) := by
    rw [List.map_append, e.map_name_inner, ← List.cons_append]
    exact hold.symm.append_right _
  exact (hnew.trans hadd).cons_inv

theorem exists_split (h : d.parts.count (.var p) = 1) : ∃ l r, d.parts = l ++ .var p :: r ∧
    ∀ e, (d.fill p e).parts = l ++ (e.parts ++ r) := by
  have hmem : .var p ∈ d.parts := List.count_pos_iff.mp (by omega)
  obtain ⟨l, r, hsplit⟩ := List.append_of_mem hmem
  rw [hsplit, List.count_append, List.count_cons_self] at h
  have hkeep : ∀ (e : Document) (qs : List Part), qs.count (.var p) = 0 →
      qs.flatMap (fillPart p e) = qs := by
    intro e qs hq
    rw [List.count_eq_zero] at hq
    refine (List.flatMap_congr ?_).trans (List.flatMap_singleton' qs)
    intro q hqs
    have hne : q ≠ .var p := fun he => hq (he.symm ▸ hqs)
    exact if_neg hne
  refine ⟨l, r, hsplit, ?_⟩
  intro e
  rw [parts_fill, hsplit, List.flatMap_append, List.flatMap_cons, hkeep e l (by omega),
    hkeep e r (by omega), fillPart, if_pos rfl]

def childOf? : Part → Option Text
  | .child n => some n
  | _ => none

theorem childNames_eq : d.childNames = d.parts.filterMap childOf? := by
  induction d with
  | nil => rfl
  | text t rest ih =>
    have hchars : (t.map Part.char).filterMap childOf? = [] := by
      rw [List.filterMap_eq_nil_iff]
      intro q hq
      obtain ⟨c, -, rfl⟩ := List.mem_map.mp hq
      rfl
    rw [childNames, parts, List.filterMap_append, hchars, ih, List.nil_append]
  | placeholder name rest ih => exact ih
  | filtered name f rest ih => exact ih
  | call name args rest ih => exact ih
  | comment body rest ih => exact ih
  | block name body rest _ ih => rw [childNames, parts, ih]; rfl

theorem calls_fill (hf : e.filters = []) (hi : e.inlineCalls = []) :
    (d.fill p e).filters = d.filters ∧ (d.fill p e).inlineCalls = d.inlineCalls := by
  induction d with
  | nil => exact ⟨rfl, rfl⟩
  | text t rest ih => exact ih
  | placeholder name rest ih =>
    rw [fill]
    split
    · rw [filters_append, inlineCalls_append, hf, hi]
      exact ih
    · exact ih
  | filtered name f rest ih => exact ⟨congrArg (_ :: ·) ih.1, ih.2⟩
  | call name args rest ih => exact ⟨ih.1, congrArg (_ :: ·) ih.2⟩
  | comment body rest ih => exact ih
  | block name body rest _ ih => exact ih

theorem mem_bodies_fill (h : p ∈ d.placeholders) : ∀ x ∈ e.bodies, x ∈ (d.fill p e).bodies := by
  induction d with
  | nil => cases h
  | text t rest ih => exact ih h
  | placeholder name rest ih =>
    intro x hx
    rw [fill]
    split
    · rw [bodies_append]
      exact List.mem_append_left _ hx
    · rename_i hn
      exact ih ((List.mem_cons.mp h).resolve_left fun he => hn he.symm) x hx
  | filtered name f rest ih => exact ih h
  | call name args rest ih => exact ih h
  | comment body rest ih => exact ih h
  | block name body rest ihb ih =>
    intro x hx
    rw [fill, bodies, List.mem_append, List.mem_cons]
    rcases List.mem_append.mp h with h | h
    · exact .inl (ihb h x hx)
    · exact .inr (.inr (ih h x hx))

end Fill

end Document

end BlockTemplate
