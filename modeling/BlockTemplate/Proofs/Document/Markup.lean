import BlockTemplate.Proofs.Document.Basic
import BlockTemplate.Proofs.Text.Class

/-!
# Where nothing begins in printed documents

Names have no character that begins a tag or a placeholder, and escaping an argument brings no tag
about.
-/

namespace BlockTemplate

namespace Markup

open Text (expect expect_eq_some Clear)

def Edge (t : Text) : Prop := ∀ c ∈ t.head?, c = '<' ∨ c = '\x7b' ∨ c = 'f'

theorem edge_nil : Edge [] := by
  intro c hc
  cases hc

theorem edge_tag (t : Text) : Edge (Tag.opening ++ t) := by
  intro c hc
  cases hc
  exact .inl rfl

theorem edge_token (name t : Text) : Edge (token name ++ t) := by
  intro c hc
  cases hc
  exact .inr (.inl rfl)

theorem edge_filter (name f t : Text) : Edge (filter name f ++ t) := by
  intro c hc
  cases hc
  exact .inr (.inl rfl)

theorem edge_call (name : Text) (args : List Text) (t : Text) : Edge (call name args ++ t) := by
  intro c hc
  cases hc
  exact .inr (.inr rfl)

theorem Edge.not_mem {t word : Text} (h : Edge t) (hw : ∀ c ∈ word, c ≠ '<' ∧ c ≠ '\x7b' ∧ c ≠ 'f') :
    ∀ c ∈ t.head?, c ∉ word := by
  intro c hc hm
  obtain ⟨h₁, h₂, h₃⟩ := hw c hm
  rcases h c hc with he | he | he
  · exact h₁ he
  · exact h₂ he
  · exact h₃ he

theorem plainText_spec {t : Text} (h : Page.plainText t = true) :
    '\x7b' ∉ t ∧ ¬ Tag.opening <:+: t ∧ ¬ "func_".toList <:+: t := by
  rw [Page.plainText, Bool.and_eq_true, Bool.and_eq_true, Bool.not_eq_true', Bool.not_eq_true',
    Bool.not_eq_true', decide_eq_false_iff_not, decide_eq_false_iff_not] at h
  refine ⟨?_, h.1.2, h.2⟩
  intro hm
  have hc := h.1.1
  rw [List.contains_iff_mem.mpr hm] at hc
  cases hc

theorem variableName_spec {name : Text} (h : Page.isVariableName name = true) :
    name ≠ [] ∧ ∀ c ∈ name, Text.isVariableChar c = true := by
  rw [Page.isVariableName, Bool.and_eq_true, decide_eq_true_eq, List.all_eq_true] at h
  exact h

theorem blockName_spec {name : Text} (h : Page.isBlockName name = true) :
    name ≠ [] ∧ ∀ c ∈ name, Text.isBlockChar c = true := by
  rw [Page.isBlockName, Bool.and_eq_true, decide_eq_true_eq, List.all_eq_true] at h
  exact h

theorem functionName_spec {name : Text} (h : Text.isFunctionName name = true) :
    name ≠ [] ∧ ∀ c ∈ name, Text.isFunctionChar c = true := by
  obtain ⟨c, t, rfl, hc, ht⟩ := Text.exists_cons_of_isFunctionName h
  refine ⟨List.cons_ne_nil c t, ?_⟩
  intro x hx
  rcases List.mem_cons.mp hx with rfl | hx
  · exact Text.isFunctionChar_of_isFunctionStart hc
  · exact ht x hx

theorem clear_plainText {t rest : Text} (h : Page.plainText t = true) (hr : Edge rest) :
    Clear Tag.opening t rest :=
  Text.clear_of_not_infix (plainText_spec h).2.1 (hr.not_mem (by simp [Tag.opening]))

theorem clear_of_no_bracket {a : Text} (h : '<' ∉ a) (rest : Text) : Clear Tag.opening a rest := by
  refine Text.clear_of_head (by decide) ?_ rest
  intro c hc he
  have hcb : '<' = c := Option.some.inj he
  exact h (hcb ▸ hc)

theorem no_bracket_of_variable {name : Text} (h : ∀ c ∈ name, Text.isVariableChar c = true) :
    '<' ∉ name := by
  intro hm
  exact absurd (h _ hm) (by decide)

theorem clear_token {name : Text} (h : Page.isVariableName name = true) (rest : Text) :
    Clear Tag.opening (token name) rest := by
  refine clear_of_no_bracket ?_ rest
  have := no_bracket_of_variable (variableName_spec h).2
  simp only [token, Dialect.token, Dialect.standard, List.mem_append, List.mem_singleton, not_or]
  exact ⟨⟨by decide, this⟩, by decide⟩

theorem clear_filter {name f : Text} (h : Page.isVariableName name = true)
    (hf : Text.isFunctionName f = true) (rest : Text) :
    Clear Tag.opening (filter name f) rest := by
  refine clear_of_no_bracket ?_ rest
  have hn := no_bracket_of_variable (variableName_spec h).2
  have hfn := no_bracket_of_variable fun c hc =>
    Text.isVariableChar_of_isFunctionChar ((functionName_spec hf).2 c hc)
  simp only [filter, List.mem_cons, List.mem_append, List.not_mem_nil, or_false, not_or]
  exact ⟨by decide, hn, by decide, hfn, by decide⟩

theorem prefix_of_expect_escape {word a rest after : Text}
    (hw : ∀ c ∈ word, c ≠ '\\' ∧ c ≠ '\'') (hr : ∀ c ∈ rest.head?, c ∉ word)
    (h : expect word (escape a ++ rest) = some after) : word <+: a := by
  induction word generalizing a with
  | nil => exact List.nil_prefix
  | cons x word ih =>
    have hx := hw x List.mem_cons_self
    cases a with
    | nil =>
      have hrest : rest = x :: (word ++ after) := expect_eq_some.mp h
      rw [hrest] at hr
      exact absurd List.mem_cons_self (hr x rfl)
    | cons d a =>
      rw [escape, List.flatMap_cons] at h
      split at h
      · have hbad := congrArg (·.headD x) (expect_eq_some.mp h)
        exact absurd hbad.symm hx.1
      · have heq : d :: (escape a ++ rest) = x :: (word ++ after) := expect_eq_some.mp h
        obtain ⟨hdx, htl⟩ := List.cons.inj heq
        have hpre := ih (fun c hc => hw c (List.mem_cons_of_mem _ hc))
          (fun c hc hm => hr c hc (List.mem_cons_of_mem _ hm)) (expect_eq_some.mpr htl)
        exact List.cons_prefix_cons.mpr ⟨hdx.symm, hpre⟩

theorem clear_escape {a rest : Text} (h : ¬ Tag.opening <:+: a)
    (hr : ∀ c ∈ rest.head?, c ∉ Tag.opening) : Clear Tag.opening (escape a) rest := by
  induction a with
  | nil =>
    intro s hs hsa
    exact absurd (List.suffix_nil.mp hsa) hs
  | cons c a ih =>
    have hrest : Clear Tag.opening (escape a) rest :=
      ih fun hin => h (hin.trans (List.suffix_cons c a).isInfix)
    have hsplit : escape (c :: a) =
        (if c = '\\' ∨ c = '\'' then ['\\', c] else [c]) ++ escape a := List.flatMap_cons ..
    rw [hsplit]
    refine Clear.append ?_ hrest
    split
    · rename_i hc
      refine clear_of_no_bracket ?_ _
      rcases hc with rfl | rfl
      · decide
      · decide
    · rename_i hc
      intro s hs hsc
      rw [List.suffix_cons_iff, List.suffix_nil] at hsc
      have hsc' := hsc.resolve_right hs
      cases he : expect Tag.opening (s ++ (escape a ++ rest)) with
      | none => rfl
      | some after =>
        have hfull : s ++ (escape a ++ rest) = escape (c :: a) ++ rest := by
          rw [hsplit, if_neg hc, hsc', List.append_assoc]
        rw [hfull] at he
        exact absurd (prefix_of_expect_escape (by simp [Tag.opening]) hr he).isInfix h

theorem arguments_singleton (a : Text) : arguments [a] = quote a := by
  simp [arguments, Text.join, List.intercalate]

theorem arguments_cons_cons (a b : Text) (args : List Text) :
    arguments (a :: b :: args) = quote a ++ ',' :: arguments (b :: args) := by
  simp [arguments, Text.join, List.intercalate]

theorem plainArgument_spec {a : Text} (h : Page.plainArgument a = true) :
    ¬ Tag.opening <:+: a := by
  rw [Page.plainArgument, Bool.and_eq_true, Bool.not_eq_true', decide_eq_false_iff_not] at h
  exact h.1

theorem clear_quote {a : Text} (h : Page.plainArgument a = true) (rest : Text) :
    Clear Tag.opening (quote a) rest := by
  have hopen : Clear Tag.opening ['\''] (escape a ++ ['\''] ++ rest) :=
    clear_of_no_bracket (by decide) _
  refine Clear.append hopen (Clear.append (clear_escape (plainArgument_spec h) ?_) ?_)
  · intro c hc
    cases hc
    decide
  · exact clear_of_no_bracket (by decide) _

theorem clear_arguments {args : List Text} (h : ∀ a ∈ args, Page.plainArgument a = true)
    (rest : Text) : Clear Tag.opening (arguments args) rest := by
  induction args with
  | nil =>
    intro s hs hsa
    exact absurd (List.suffix_nil.mp hsa) hs
  | cons a args ih =>
    have ha := h a List.mem_cons_self
    cases args with
    | nil =>
      rw [arguments_singleton]
      exact clear_quote ha rest
    | cons b args =>
      rw [arguments_cons_cons]
      refine Clear.append (clear_quote ha _) ?_
      exact Clear.append (a := [',']) (clear_of_no_bracket (by decide) _)
        (ih fun x hx => h x (List.mem_cons_of_mem _ hx))

theorem clear_call {name : Text} {args : List Text} (hn : Text.isFunctionName name = true)
    (h : ∀ a ∈ args, Page.plainArgument a = true) (rest : Text) :
    Clear Tag.opening (call name args) rest := by
  have hname := no_bracket_of_variable fun c hc =>
    Text.isVariableChar_of_isFunctionChar ((functionName_spec hn).2 c hc)
  refine Clear.append (clear_of_no_bracket (by decide) _) ?_
  refine Clear.append (clear_of_no_bracket hname _) ?_
  refine Clear.append (a := ['(']) (clear_of_no_bracket (by decide) _) ?_
  exact Clear.append (clear_arguments h _) (clear_of_no_bracket (by decide) _)

end Markup

end BlockTemplate
