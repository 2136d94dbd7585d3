import BlockTemplate.Proofs.Document.Expand
import BlockTemplate.Proofs.Section.Dissolve
import BlockTemplate.Proofs.Tree.Alike
import Mathlib.Data.List.Perm.Basic

/-!
# Sections of documents with files put in

A block put in place of a placeholder and dissolved again leaves the section that its document would
leave in place of the placeholder, but for the order in which the section lists things.
-/

namespace BlockTemplate

namespace Document

variable (d : Document) {p : Text} {e : Document}

theorem parts_of_mem_calls {c : Call} (h : c ∈ d.calls) : .result c ∈ d.parts := by
  rw [calls, List.mem_append] at h
  induction d with
  | nil => exact absurd (h.elim id id) List.not_mem_nil
  | text t rest ih => exact List.mem_append_right _ (ih h)
  | placeholder name rest ih => exact List.mem_cons_of_mem _ (ih h)
  | filtered name f rest ih =>
    rcases h with h | h
    · rcases List.mem_cons.mp h with rfl | h
      · exact List.mem_cons_self
      · exact List.mem_cons_of_mem _ (ih (.inl h))
    · exact List.mem_cons_of_mem _ (ih (.inr h))
  | call name args rest ih =>
    rcases h with h | h
    · exact List.mem_cons_of_mem _ (ih (.inl h))
    · rcases List.mem_cons.mp h with rfl | h
      · exact List.mem_cons_self
      · exact List.mem_cons_of_mem _ (ih (.inr h))
  | comment text rest ih => exact ih h
  | block name body rest _ ih => exact List.mem_cons_of_mem _ (ih h)

theorem mem_calls_iff_parts {c : Call} : c ∈ d.calls ↔ .result c ∈ d.parts :=
  ⟨d.parts_of_mem_calls, d.mem_calls_of_parts⟩

theorem mem_calls_fill {c : Call} : c ∈ (d.fill p e).calls ↔
    c ∈ d.calls ∨ (.var p ∈ d.parts ∧ c ∈ e.calls) := by
  rw [mem_calls_iff_parts, mem_calls_iff_parts, mem_calls_iff_parts, parts_fill, List.mem_flatMap]
  constructor
  · rintro ⟨q, hq, hc⟩
    rw [fillPart] at hc
    split at hc
    · rename_i he
      exact .inr ⟨he ▸ hq, hc⟩
    · exact .inl (List.mem_singleton.mp hc ▸ hq)
  · rintro (hc | ⟨hp, hc⟩)
    · exact ⟨_, hc, by rw [fillPart, if_neg (by simp)]; exact List.mem_singleton_self _⟩
    · exact ⟨.var p, hp, by rwa [fillPart, if_pos rfl]⟩

theorem mem_variableNames_fill (h : d.Bare p) {x : Text} : x ∈ (d.fill p e).variableNames ↔
    (x ∈ d.variableNames ∧ x ≠ p) ∨ (p ∈ d.variableNames ∧ x ∈ e.variableNames) := by
  rw [d.variableNames_fill h, List.mem_flatMap]
  constructor
  · rintro ⟨y, hy, hx⟩
    rw [fillName] at hx
    split at hx
    · rename_i he
      exact .inr ⟨he ▸ hy, hx⟩
    · rename_i hne
      rw [List.mem_singleton] at hx
      exact .inl ⟨hx ▸ hy, hx ▸ hne⟩
  · rintro (⟨hx, hne⟩ | ⟨hp, hx⟩)
    · exact ⟨x, hx, by rw [fillName, if_neg hne]; exact List.mem_singleton_self x⟩
    · exact ⟨p, hp, by rwa [fillName, if_pos rfl]⟩

theorem placeholders_of_mem_bodies {x : Text × Document} (hx : x ∈ d.bodies) :
    ∀ p ∈ x.2.placeholders, p ∈ d.placeholders := by
  induction d with
  | nil => cases hx
  | text t rest ih => exact ih hx
  | placeholder name rest ih => exact fun p hp => List.mem_cons_of_mem _ (ih hx p hp)
  | filtered name f rest ih => exact ih hx
  | call name args rest ih => exact ih hx
  | comment body rest ih => exact ih hx
  | block name body rest ihb ih =>
    intro p hp
    rw [bodies, List.mem_append, List.mem_cons] at hx
    rw [placeholders, List.mem_append]
    rcases hx with hx | rfl | hx
    · exact .inl (ihb hx p hp)
    · exact .inl hp
    · exact .inr (ih hx p hp)

theorem placeholders_of_parts (top : Text) : ∀ s ∈ d.sections top, .var p ∈ s.parts →
    p ∈ d.placeholders := by
  intro s hs hp
  rcases List.mem_cons.mp hs with rfl | hs
  · exact d.mem_placeholders_of_parts hp
  · rw [inner_eq_map] at hs
    obtain ⟨x, hx, rfl⟩ := List.mem_map.mp hs
    exact d.placeholders_of_mem_bodies hx p (x.2.mem_placeholders_of_parts hp)

theorem not_mem_vars_sections (h : d.Unused p) (top : Text) : ∀ s ∈ d.sections top, p ∉ s.vars :=
  List.forall_mem_cons.mpr
    ⟨d.not_mem_vars_own h.bare h.absent top, d.not_mem_vars_inner h.bare h.absent⟩

end Document

namespace Section

structure Sturdy (s : Section) : Prop where
  clear : s.Clear
  tokens : ∀ k, .var (childName (Inclusion.numbered k)) ∉ s.parts

theorem clear_child_numbered (k : Nat) : Part.Clear (.child (Inclusion.numbered k)) := by
  refine ⟨Listing.isVariableName_childName ?_, Inclusion.isMemo_childName_numbered k⟩
  have hall : (Inclusion.numbered k).all Text.isBlockChar = true :=
    List.all_eq_true.mpr (Inclusion.isBlockChar_numbered k)
  have hne : Inclusion.numbered k ≠ [] := List.cons_ne_nil _ _
  rw [Page.isBlockName, hall, Bool.and_true, decide_eq_true_eq]
  exact hne

variable {s x : Section} {k : Nat}

theorem Sturdy.adopt (hs : s.Sturdy) :
    (s.adopt (Inclusion.numbered k) (Inclusion.numbered k)).Sturdy where
  clear := hs.clear.adopt (clear_child_numbered k)
  tokens := by
    intro j hj
    rcases mem_parts_adopt.mp hj with ⟨hj, -⟩ | ⟨hj, -⟩
    · exact hs.tokens j hj
    · cases hj

theorem Sturdy.absorb {n : Text} (hs : s.Sturdy) (hx : x.Sturdy) : (s.absorb n x).Sturdy where
  clear := hs.clear.absorb hx.clear
  tokens := by
    intro j hj
    rcases mem_parts_absorb.mp hj with ⟨-, hj⟩ | ⟨hj, -⟩
    · exact hx.tokens j hj
    · exact hs.tokens j hj

def paste (p : Text) (s x : Section) : Section := (s.adopt p p).absorb p x

theorem reorders_paste {body e : Document} {name p : Text} (hs : s.Reorders (body.own name))
    (hx : x.Reorders (e.own p)) (hbare : body.Bare p) (hone : body.parts.count (.var p) = 1)
    (hnot : p ∉ body.childNames) : (s.paste p x).Reorders ((body.fill p e).own name) := by
  have hvar : .var p ∈ body.parts := List.count_pos_iff.mp (by omega)
  have hkids : p ∉ s.children := fun hm => hnot (hs.children.mem_iff.mpr hm)
  have hnodup : ∀ d : Document, (d.own name).vars.Nodup ∧ (d.own name).calls.Nodup := fun d =>
    ⟨nodup_foldl_addNew List.nodup_nil _, nodup_foldl_addNew List.nodup_nil _⟩
  refine ⟨hs.name, ?_, ?_, ?_, ?_⟩
  · change (body.fill p e).parts =
      (s.parts.map fun q => if q = .var p then .child p else q).flatMap fun q =>
        if q = .child p then x.parts else [q]
    rw [← hs.parts, ← hx.parts, Document.parts_fill, List.flatMap_map]
    refine List.flatMap_congr ?_
    intro q hq
    rw [Document.fillPart]
    by_cases hv : q = .var p
    · rw [if_pos hv, if_pos hv, if_pos rfl]
      rfl
    · have hc : q ≠ .child p := fun he => hnot (body.mem_childNames_of_parts (he ▸ hq))
      rw [if_neg hv, if_neg hv, if_neg hc]
  · have hold : (s.vars.filter (· ≠ p)).Nodup := (hs.vars.nodup_iff.mp (hnodup body).1).filter _
    refine (List.perm_ext_iff_of_nodup (hnodup _).1 (nodup_foldl_addNew hold _)).mpr ?_
    intro z
    rw [Document.mem_vars_own, body.mem_variableNames_fill hbare, mem_foldl_addNew,
      List.mem_filter, ← hs.vars.mem_iff, ← hx.vars.mem_iff, Document.mem_vars_own,
      Document.mem_vars_own, decide_eq_true_eq]
    exact or_congr_right (and_iff_right (body.mem_variableNames_of_parts hvar))
  · have hold : s.calls.Nodup := hs.calls.nodup_iff.mp (hnodup body).2
    refine (List.perm_ext_iff_of_nodup (hnodup _).2 (nodup_foldl_addNew hold _)).mpr ?_
    intro z
    rw [Document.mem_calls_own, body.mem_calls_fill, mem_foldl_addNew]
    rw [← hs.calls.mem_iff, ← hx.calls.mem_iff, Document.mem_calls_own, Document.mem_calls_own]
    exact or_congr_right (and_iff_right hvar)
  · obtain ⟨l, r, hsplit, hfilled⟩ := body.exists_split hone
    have hold : body.childNames = l.filterMap Document.childOf? ++ r.filterMap Document.childOf? := by
      rw [Document.childNames_eq, hsplit, List.filterMap_append]
      rfl
    have hnew : (body.fill p e).childNames = l.filterMap Document.childOf? ++
        (e.childNames ++ r.filterMap Document.childOf?) := by
      rw [Document.childNames_eq, hfilled, List.filterMap_append, List.filterMap_append,
        e.childNames_eq]
    have hkeep : (s.children.flatMap fun c => if c = p then x.children else [c]) = s.children := by
      refine (List.flatMap_congr ?_).trans (List.flatMap_singleton' s.children)
      intro c hc
      have hne : c ≠ p := fun he => hkids (he ▸ hc)
      exact if_neg hne
    have hall : (s.paste p x).children = s.children ++ x.children := by
      change (s.children ++ [p]).flatMap _ = _
      rw [List.flatMap_append, hkeep, List.flatMap_singleton, if_pos rfl]
    change (body.fill p e).childNames.Perm _
    rw [hall, hnew]
    refine List.Perm.trans ?_ (hs.children.append hx.children)
    change List.Perm _ (body.childNames ++ e.childNames)
    rw [hold, List.append_assoc]
    exact List.perm_append_comm.append_left _

def Match (S T : List Section) : Prop := ∃ S₀, S.Perm S₀ ∧ List.Forall₂ Reorders S₀ T

theorem exists_of_forall₂ {α β : Type} {R : α → β → Prop} {xs : List α} {ys : List β}
    (h : List.Forall₂ R xs ys) {a : α} (ha : a ∈ xs) : ∃ b ∈ ys, R a b := by
  induction h with
  | nil => cases ha
  | @cons a' b xs ys hab _ ih =>
    rcases List.mem_cons.mp ha with rfl | ha
    · exact ⟨b, List.mem_cons_self, hab⟩
    · obtain ⟨c, hc, hac⟩ := ih ha
      exact ⟨c, List.mem_cons_of_mem _ hc, hac⟩

namespace Match

variable {S T U V : List Section} {r : Section}

theorem refl (S : List Section) : Match S S :=
  ⟨S, .rfl, List.forall₂_same.mpr fun s _ => .refl s⟩

theorem cons (hs : s.Reorders x) (h : Match S T) : Match (s :: S) (x :: T) := by
  obtain ⟨S₀, hp, hf⟩ := h
  exact ⟨s :: S₀, hp.cons s, .cons hs hf⟩

theorem append (h : Match S T) (h' : Match U V) : Match (S ++ U) (T ++ V) := by
  obtain ⟨S₀, hp, hf⟩ := h
  obtain ⟨U₀, hp', hf'⟩ := h'
  exact ⟨S₀ ++ U₀, hp.append hp', List.rel_append hf hf'⟩

theorem perm (h : Match S T) (hp : T.Perm U) : Match S U := by
  obtain ⟨S₀, hs, hf⟩ := h
  have hcomp : Relation.Comp (List.Forall₂ Reorders) List.Perm S₀ U := ⟨T, hf, hp⟩
  rw [List.forall₂_comp_perm_eq_perm_comp_forall₂] at hcomp
  obtain ⟨S₁, hs', hf'⟩ := hcomp
  exact ⟨S₁, hs.trans hs', hf'⟩

theorem uncons (h : Match S (x :: T)) :
    ∃ s S₁, S.Perm (s :: S₁) ∧ s.Reorders x ∧ Match S₁ T := by
  obtain ⟨S₀, hs, hf⟩ := h
  obtain ⟨s, S₁, hsx, hf', rfl⟩ := List.forall₂_cons_right_iff.mp hf
  exact ⟨s, S₁, hs, hsx, S₁, .rfl, hf'⟩

theorem forth (h : Match S T) (hr : r ∈ S) : ∃ r' ∈ T, r.Reorders r' := by
  obtain ⟨S₀, hs, hf⟩ := h
  exact exists_of_forall₂ hf (hs.mem_iff.mp hr)

theorem back (h : Match S T) (hr : r ∈ T) : ∃ r' ∈ S, r'.Reorders r := by
  obtain ⟨S₀, hs, hf⟩ := h
  obtain ⟨r', hr', hrr⟩ := exists_of_forall₂ hf.flip hr
  exact ⟨r', hs.mem_iff.mpr hr', hrr⟩

theorem name_mem {d : Document} {top : Text} (h : Match S (d.sections top)) (hr : r ∈ S) :
    r.name ∈ top :: d.names := by
  obtain ⟨r', hr', hrr⟩ := h.forth hr
  rw [← d.map_name_sections, ← hrr.name]
  exact List.mem_map_of_mem hr'

end Match

end Section

theorem Draft.sturdy_sections {d : Draft} {f : Text → Document} (next : Nat) (top : Text)
    (h : (d.expand f).Sturdy) : ∀ s ∈ (d.marked next).sections top, s.Sturdy := by
  intro s hs
  refine ⟨?_, ?_⟩
  · refine Document.clear_sections _ (plain_marked next h.plain).page ?_ top s hs
    exact fun n hn => h.unnumbered n ((d.names_marked_sublist f next).subset hn)
  · intro k hk
    rcases d.placeholders_marked f next _ (Document.placeholders_of_parts _ top s hs hk) with
      hm | ⟨j, hj⟩
    · exact h.unmarked.tokens k hm
    · have hfirst := congrArg (·.headD 'a') hj
      exact absurd hfirst (show ¬ '_' = 't' by decide)

end BlockTemplate
