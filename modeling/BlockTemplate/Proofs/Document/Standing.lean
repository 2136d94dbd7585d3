import BlockTemplate.Proofs.Document.Splice

/-!
# Where placeholders stand

A placeholder begins with a brace and has no other brace in it. So in a text that was put together it
stands in one of the parts, or it is itself a part: no part gives another the brace it lacks.
-/

namespace BlockTemplate

namespace Text

variable {w a b t : Text} {c x : Char}

theorem infix_append_of_not_mem (ha : x ∉ a) : x :: w <:+: a ++ t ↔ x :: w <:+: t := by
  induction a with
  | nil => rfl
  | cons c a ih =>
    rw [List.mem_cons, not_or] at ha
    rw [List.cons_append, List.infix_cons_iff, ih ha.2]
    exact or_iff_right fun h => ha.1 (List.cons_prefix_cons.mp h).1

theorem infix_cons_mono {t s : Text} (hp : w <+: t → w <+: s) (hi : x :: w <:+: t → x :: w <:+: s)
    (h : x :: w <:+: c :: t) : x :: w <:+: c :: s := by
  rcases List.infix_cons_iff.mp h with h | h
  · obtain ⟨hc, hw⟩ := List.cons_prefix_cons.mp h
    exact (List.cons_prefix_cons.mpr ⟨hc, hp hw⟩).isInfix
  · exact (hi h).trans (List.suffix_cons c s).isInfix

theorem prefix_of_prefix_append_cons (hx : x ∉ w) (h : w <+: a ++ x :: b) : w <+: a := by
  induction a generalizing w with
  | nil =>
    cases w with
    | nil => exact List.nil_prefix
    | cons c w => exact absurd ((List.cons_prefix_cons.mp h).1 ▸ List.mem_cons_self) hx
  | cons c a ih =>
    cases w with
    | nil => exact List.nil_prefix
    | cons d w =>
      rw [List.mem_cons, not_or] at hx
      rw [List.cons_append, List.cons_prefix_cons] at h
      exact List.cons_prefix_cons.mpr ⟨h.1, ih hx.2 h.2⟩

theorem infix_of_infix_append_cons (hw : w ≠ []) (hx : x ∉ w) (h : w <:+: a ++ x :: b) :
    w <:+: a ∨ w <:+: b := by
  induction a with
  | nil =>
    rcases List.infix_cons_iff.mp h with h | h
    · exact absurd (List.prefix_nil.mp (prefix_of_prefix_append_cons (a := []) hx h)) hw
    · exact .inr h
  | cons c a ih =>
    rcases List.infix_cons_iff.mp h with h | h
    · exact .inl (prefix_of_prefix_append_cons (a := c :: a) hx h).isInfix
    · exact (ih h).imp_left fun h => h.trans (List.suffix_cons c a).isInfix

theorem infix_dropWhile {p : Char → Bool} (hx : p x = false) (h : x :: w <:+: t) :
    x :: w <:+: t.dropWhile p := by
  induction t with
  | nil => exact h
  | cons c t ih =>
    cases hc : p c with
    | false =>
      rw [List.dropWhile_cons_of_neg (by simp [hc])]
      exact h
    | true =>
      rw [List.dropWhile_cons_of_pos hc]
      rcases List.infix_cons_iff.mp h with h | h
      · rw [(List.cons_prefix_cons.mp h).1, hc] at hx
        cases hx
      · exact ih h

theorem infix_trimEnd {p : Char → Bool} (hx : p x = false) (h : w ++ [x] <:+: t) :
    w ++ [x] <:+: trimEnd p t := by
  rw [← List.reverse_infix, List.reverse_append] at h
  rw [trimEnd, ← List.reverse_infix, List.reverse_reverse, List.reverse_append]
  exact infix_dropWhile hx h

end Text

namespace Placeholder

variable {p q : Placeholder} {t rest : Text}

def body : Placeholder → Text
  | ⟨name, none⟩ => name ++ ['\x7d']
  | ⟨name, some f⟩ => name ++ ':' :: (f ++ ['\x7d'])

def print (p : Placeholder) : Text := '\x7b' :: p.body

structure Proper (p : Placeholder) : Prop where
  name : Page.isVariableName p.name = true
  filter : ∀ f, p.filter = some f → Text.isFunctionName f = true

theorem proper_token {name : Text} (h : Page.isVariableName name = true) :
    Proper ⟨name, none⟩ where
  name := h
  filter := by
    intro f hf
    cases hf

theorem read_body (hp : p.Proper) (rest : Text) :
    read .standard (p.body ++ rest) = some (p, rest) := by
  obtain ⟨name, filter⟩ := p
  cases filter with
  | none => exact Page.read_token hp.name rest
  | some f => exact Page.read_filter hp.name (hp.filter f rfl) rest

theorem read_eq_some (h : read .standard t = some (p, rest)) : t = p.body ++ rest ∧ p.Proper := by
  simp only [read, Option.bind_eq_bind, Option.bind_eq_some_iff, Prod.exists] at h
  obtain ⟨name, after, hs, h⟩ := h
  obtain ⟨rfl, hne, hall, -⟩ := Tag.readSome_eq_some hs
  have hname : Page.isVariableName name = true := by
    rw [Page.isVariableName, Bool.and_eq_true, decide_eq_true_eq, List.all_eq_true]
    exact ⟨hne, hall⟩
  split at h
  · rename_i f behind hf
    simp only [Option.bind_eq_some_iff, Option.pure_def, Option.some.injEq, Prod.mk.injEq] at h
    obtain ⟨rest', hc, rfl, rfl⟩ := h
    rw [readFilter.eq_def] at hf
    split at hf
    · obtain ⟨rfl, hfun⟩ := Text.readFunctionName_eq_some hf
      refine ⟨?_, hname, ?_⟩
      · rw [Text.expect_eq_some.mp hc]
        simp [body, Dialect.standard]
      · intro g hg
        cases hg
        exact hfun
    · cases hf
  · simp only [Option.bind_eq_some_iff, Option.pure_def, Option.some.injEq, Prod.mk.injEq] at h
    obtain ⟨rest', hc, rfl, rfl⟩ := h
    refine ⟨?_, proper_token hname⟩
    rw [Text.expect_eq_some.mp hc]
    simp [body, Dialect.standard]

theorem mem_body (hp : p.Proper) {c : Char} (hc : c ∈ p.body) :
    Text.isVariableChar c = true ∨ c = ':' ∨ c = '\x7d' := by
  obtain ⟨name, filter⟩ := p
  have hname := (Markup.variableName_spec hp.name).2
  cases filter with
  | none =>
    rcases List.mem_append.mp hc with hc | hc
    · exact .inl (hname c hc)
    · exact .inr (.inr (List.mem_singleton.mp hc))
  | some f =>
    have hf := (Markup.functionName_spec (hp.filter f rfl)).2
    simp only [body, List.mem_append, List.mem_cons, List.not_mem_nil, or_false] at hc
    rcases hc with hc | rfl | hc | rfl
    · exact .inl (hname c hc)
    · exact .inr (.inl rfl)
    · exact .inl (Text.isVariableChar_of_isFunctionChar (hf c hc))
    · exact .inr (.inr rfl)

theorem not_mem_body (hp : p.Proper) {c : Char}
    (hc : (!Text.isVariableChar c && c ≠ ':' && c ≠ '\x7d') = true) : c ∉ p.body := by
  simp only [Bool.and_eq_true, Bool.not_eq_true', decide_eq_true_eq] at hc
  intro hm
  rcases mem_body hp hm with h | h | h
  · rw [hc.1.1] at h
    cases h
  · exact hc.1.2 h
  · exact hc.2 h

theorem brace_not_mem_body (hp : p.Proper) : '\x7b' ∉ p.body := not_mem_body hp (by decide)

theorem not_mem_print (hp : p.Proper) {c : Char} (hb : c ≠ '\x7b')
    (hc : (!Text.isVariableChar c && c ≠ ':' && c ≠ '\x7d') = true) : c ∉ p.print := by
  rw [print, List.mem_cons, not_or]
  exact ⟨hb, not_mem_body hp hc⟩

theorem exists_print_eq (p : Placeholder) : ∃ s, p.print = s ++ ['\x7d'] := by
  obtain ⟨name, filter⟩ := p
  cases filter with
  | none => exact ⟨'\x7b' :: name, rfl⟩
  | some f => exact ⟨'\x7b' :: (name ++ ':' :: f), by simp [print, body]⟩

theorem eq_of_starts (hp : p.Proper) (hq : q.Proper) (h : p.print <+: q.print ++ t) :
    p = q := by
  obtain ⟨rest, hrest⟩ := (List.cons_prefix_cons.mp h).2
  change p.body ++ rest = q.body ++ t at hrest
  have hread := read_body hp rest
  rw [hrest, read_body hq t] at hread
  cases hread
  rfl

theorem infix_print_append (hp : p.Proper) (hq : q.Proper) (h : p.print <:+: q.print ++ t) :
    p = q ∨ p.print <:+: t := by
  rcases List.infix_cons_iff.mp h with h | h
  · exact .inl (eq_of_starts hp hq h)
  · exact .inr ((Text.infix_append_of_not_mem (brace_not_mem_body hq)).mp h)

theorem leaves_read : Text.Leaves (read .standard) := by
  intro t p rest h
  exact ⟨p.body, (read_eq_some h).1.symm⟩

theorem cut_induction {motive : Text → Prop} (nil : motive [])
    (char : ∀ c t, c ≠ '\x7b' → motive t → motive (c :: t))
    (stray : ∀ t, read .standard t = none → motive t → motive ('\x7b' :: t))
    (mark : ∀ (p : Placeholder) t, p.Proper → motive t → motive (p.print ++ t)) (t : Text) :
    motive t := by
  refine Text.pieces_induction Dialect.standard.opener_ne leaves_read nil
    (fun c t h => char c t (Page.ne_brace_of_expect h)) stray ?_ t
  intro used rest p h hrest
  obtain ⟨hused, hp⟩ := read_eq_some h
  rw [hused]
  exact mark p rest hp hrest

end Placeholder

namespace Dialect

variable {t : Text}

theorem placeholders_char {c : Char} (hc : c ≠ '\x7b') (t : Text) :
    standard.placeholders (c :: t) = .char c :: standard.placeholders t := by
  refine Text.pieces_of_expect_none ?_
  change Text.expect ['\x7b'] (c :: t) = none
  rw [Text.expect, if_neg (Ne.symm hc)]

theorem placeholders_stray (h : Placeholder.read .standard t = none) :
    standard.placeholders ('\x7b' :: t) = .char '\x7b' :: standard.placeholders t :=
  Text.pieces_of_read_none standard.opener_ne h

theorem placeholders_print {p : Placeholder} (hp : p.Proper) (t : Text) :
    standard.placeholders (p.print ++ t) = .mark p.print p :: standard.placeholders t :=
  Text.pieces_of_read standard.opener_ne (Placeholder.read_body hp t)

theorem token_of_lookup {name : Text} (h : name ∈ standard.lookups t) :
    Page.isVariableName name = true ∧ Markup.token name <:+: t := by
  obtain ⟨p, hp, hvalue⟩ := List.mem_filterMap.mp h
  cases p with
  | char c => cases hvalue
  | mark raw x =>
    cases hvalue
    obtain ⟨used, rest, -, hread⟩ := Text.read_of_mem_pieces standard.opener_ne
      Page.leaves_readName hp
    refine ⟨(Page.readName_eq_some hread).2, ?_⟩
    have hraw : raw = Markup.token name := raw_eq_token hp
    obtain ⟨before, after, hsplit⟩ := List.append_of_mem hp
    have hjoin := Text.flatMap_raw_pieces standard.opener_ne Page.leaves_readName t
    change (standard.names t).flatMap Piece.raw = t at hjoin
    rw [hsplit, List.flatMap_append, List.flatMap_cons, ← List.append_assoc] at hjoin
    exact ⟨_, _, hraw ▸ hjoin⟩

end Dialect

end BlockTemplate
