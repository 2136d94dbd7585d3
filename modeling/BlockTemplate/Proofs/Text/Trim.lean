import BlockTemplate.Proofs.Text.Class
import BlockTemplate.Proofs.Text.Lines
import Mathlib.Data.List.DropRight

/-!
# Trimmed lines

Trimming a text leaves nothing to trim, and lines with text that are joined are the lines of what
they were joined to. What is told of a text by its words does not change when its lines are trimmed.
-/

namespace BlockTemplate.Text

section Trim

variable {p : Char → Bool} {t : Text}

structure Trimmed (p : Char → Bool) (t : Text) : Prop where
  ne : t ≠ []
  head : ∀ c ∈ t.head?, p c = false
  last : ∀ c ∈ t.getLast?, p c = false

theorem infix_of_trim (p : Char → Bool) (t : Text) : trim p t <:+: t :=
  (List.rdropWhile_prefix p (t.dropWhile p)).isInfix.trans (List.dropWhile_suffix p).isInfix

theorem trimmed_trim (h : trim p t ≠ []) : Trimmed p (trim p t) where
  ne := h
  head := by
    intro c hc
    obtain ⟨s, hs⟩ := List.head?_eq_some_iff.mp hc
    obtain ⟨rest, hrest⟩ := List.rdropWhile_prefix p (t.dropWhile p)
    change trim p t ++ rest = t.dropWhile p at hrest
    have hnot := List.head?_dropWhile_not p t
    rw [← hrest, hs] at hnot
    exact hnot
  last := by
    intro c hc
    have hnot := List.rdropWhile_last_not p (t.dropWhile p) h
    rw [Option.mem_def, List.getLast?_eq_some_getLast h, Option.some.injEq] at hc
    rw [← hc]
    exact (Bool.not_eq_true _).mp hnot

theorem Trimmed.trim_eq (h : Trimmed p t) : trim p t = t := by
  have hstart : t.dropWhile p = t := by
    rw [List.dropWhile_eq_self_iff]
    intro hl
    rw [h.head t[0] (by rw [List.head?_eq_getElem?, List.getElem?_eq_getElem hl]; rfl)]
    exact Bool.false_ne_true
  have hend : t.rdropWhile p = t := by
    rw [List.rdropWhile_eq_self_iff]
    intro hl
    rw [h.last _ (List.getLast?_eq_some_getLast hl)]
    exact Bool.false_ne_true
  calc trim p t = (t.dropWhile p).rdropWhile p := rfl
    _ = t := by rw [hstart, hend]

end Trim

section Join

variable {l t : Text} {ls : List Text}

theorem lines_of_not_mem (hne : t ≠ []) (h : '\n' ∉ t) : lines t = [t] := by
  rw [lines, splitOn_of_not_mem h]
  cases t with
  | nil => exact absurd rfl hne
  | cons c t => rfl

theorem newline_not_mem_of_mem_lines (h : l ∈ lines t) : '\n' ∉ l := by
  obtain ⟨ls, last, rfl, hls, hlast⟩ := exists_unlines t
  rw [lines_unlines hls, List.mem_append] at h
  rcases h with h | h
  · exact hls l h
  · by_cases hne : last = []
    · subst hne
      cases h
    · rw [lines_of_not_mem hne hlast, List.mem_singleton] at h
      exact h ▸ hlast

theorem join_singleton (sep l : Text) : join sep [l] = l := List.intercalate_singleton

theorem join_cons_cons (sep l m : Text) (ls : List Text) :
    join sep (l :: m :: ls) = l ++ (sep ++ join sep (m :: ls)) := by
  rw [join, List.intercalate_cons_cons, List.append_assoc]
  rfl

theorem join_concat (ls : List Text) (l : Text) : join ['\n'] (ls ++ [l]) = unlines ls ++ l := by
  induction ls with
  | nil => exact join_singleton _ l
  | cons m ls ih =>
    have hjoin : join ['\n'] (m :: (ls ++ [l])) = m ++ (['\n'] ++ join ['\n'] (ls ++ [l])) := by
      cases ls with
      | nil => exact join_cons_cons _ m l []
      | cons x ls => exact join_cons_cons _ m x (ls ++ [l])
    rw [List.cons_append, hjoin, ih, unlines_cons, List.append_assoc]
    rfl

theorem lines_join (hne : ∀ l ∈ ls, l ≠ []) (h : ∀ l ∈ ls, '\n' ∉ l) :
    lines (join ['\n'] ls) = ls := by
  induction ls with
  | nil => rfl
  | cons l ls ih =>
    rw [List.forall_mem_cons] at hne h
    cases ls with
    | nil =>
      rw [join_singleton]
      exact lines_of_not_mem hne.1 h.1
    | cons m ls =>
      rw [join_cons_cons, List.singleton_append, lines_append, splitOn_of_not_mem h.1,
        ih hne.2 h.2]
      rfl

theorem prefix_of_join_lines (t : Text) : join ['\n'] (lines t) <+: t := by
  obtain ⟨ls, last, rfl, hls, hlast⟩ := exists_unlines t
  rw [lines_unlines hls]
  by_cases hne : last = []
  · subst hne
    change join ['\n'] (ls ++ []) <+: unlines ls ++ []
    rw [List.append_nil, List.append_nil]
    rcases List.eq_nil_or_concat' ls with rfl | ⟨init, l, rfl⟩
    · exact List.nil_prefix
    · rw [join_concat, unlines, unlines, List.flatMap_append, List.flatMap_singleton,
        ← List.append_assoc]
      exact List.prefix_append _ _
  · rw [lines_of_not_mem hne hlast, join_concat]

theorem join_sublist_cons (sep l : Text) (ls : List Text) :
    (join sep ls).Sublist (join sep (l :: ls)) := by
  cases ls with
  | nil => exact List.nil_sublist _
  | cons m ls =>
    rw [join_cons_cons]
    exact (List.sublist_append_right sep _).trans (List.sublist_append_right l _)

theorem join_trim_sublist (p : Char → Bool) (ls : List Text) :
    (join ['\n'] ((ls.map (trim p)).filter (· ≠ []))).Sublist (join ['\n'] ls) := by
  induction ls with
  | nil => exact List.Sublist.refl _
  | cons l ls ih =>
    have hl := (infix_of_trim p l).sublist
    by_cases hne : trim p l = []
    · rw [List.map_cons, List.filter_cons_of_neg (by simp [hne])]
      exact ih.trans (join_sublist_cons _ l ls)
    · rw [List.map_cons, List.filter_cons_of_pos (by simp [hne])]
      cases ls with
      | nil => rwa [List.map_nil, List.filter_nil, join_singleton, join_singleton]
      | cons m ls =>
        rw [join_cons_cons]
        cases hrest : ((m :: ls).map (trim p)).filter (· ≠ []) with
        | nil =>
          rw [join_singleton]
          exact hl.trans (List.sublist_append_left _ _)
        | cons x xs =>
          rw [hrest] at ih
          rw [join_cons_cons]
          exact hl.append (ih.append_left _)

end Join

section Words

variable {α : Type} {f : Text → List α} {c : Char} {t : Text}

/-- What is told of a text is told of its words: a blank parts it, and adds nothing. -/
structure Wordwise (f : Text → List α) : Prop where
  nil : f [] = []
  blank : ∀ c, isBlank c = true → ∀ s t, f (s ++ c :: t) = f s ++ f t

namespace Wordwise

theorem apply_cons (h : Wordwise f) (hc : isBlank c = true) (t : Text) : f (c :: t) = f t := by
  have hblank := h.blank c hc [] t
  rwa [h.nil, List.nil_append, List.nil_append] at hblank

theorem apply_concat (h : Wordwise f) (hc : isBlank c = true) (t : Text) : f (t ++ [c]) = f t := by
  rw [h.blank c hc, h.nil, List.append_nil]

theorem apply_dropWhile (h : Wordwise f) (t : Text) : f (t.dropWhile isBlank) = f t := by
  induction t with
  | nil => rfl
  | cons c t ih =>
    cases hc : isBlank c with
    | true => rw [List.dropWhile_cons_of_pos hc, ih, h.apply_cons hc]
    | false => rw [List.dropWhile_cons_of_neg (by simp [hc])]

theorem apply_rdropWhile (h : Wordwise f) (t : Text) : f (t.rdropWhile isBlank) = f t := by
  induction t using List.reverseRecOn with
  | nil => rfl
  | append_singleton t c ih =>
    cases hc : isBlank c with
    | true => rw [List.rdropWhile_concat_pos _ _ _ hc, ih, h.apply_concat hc]
    | false => rw [List.rdropWhile_concat_neg _ _ _ (by simp [hc])]

theorem apply_trim (h : Wordwise f) (t : Text) : f (trim isBlank t) = f t :=
  (h.apply_rdropWhile (t.dropWhile isBlank)).trans (h.apply_dropWhile t)

theorem apply_unlines (h : Wordwise f) (ls : List Text) (t : Text) :
    f (unlines ls ++ t) = ls.flatMap f ++ f t := by
  induction ls with
  | nil => rfl
  | cons l ls ih =>
    rw [unlines_cons, List.append_assoc, List.cons_append, h.blank '\n' (by decide), ih,
      List.flatMap_cons, List.append_assoc]

theorem apply_lines (h : Wordwise f) (t : Text) : (lines t).flatMap f = f t := by
  obtain ⟨ls, last, rfl, hls, hlast⟩ := exists_unlines t
  have hrest : (lines last).flatMap f = f last := by
    by_cases hne : last = []
    · rw [hne, h.nil]
      rfl
    · rw [lines_of_not_mem hne hlast, List.flatMap_singleton]
  rw [lines_unlines hls, List.flatMap_append, hrest, h.apply_unlines]

theorem apply_join (h : Wordwise f) (ls : List Text) : f (join ['\n'] ls) = ls.flatMap f := by
  induction ls with
  | nil => exact h.nil
  | cons l ls ih =>
    cases ls with
    | nil => rw [join_singleton, List.flatMap_singleton]
    | cons m ls =>
      rw [join_cons_cons, List.singleton_append, h.blank '\n' (by decide), ih]
      rfl

theorem flatMap_filter_ne_nil (h : Wordwise f) (ls : List Text) :
    (ls.filter (· ≠ [])).flatMap f = ls.flatMap f := by
  induction ls with
  | nil => rfl
  | cons l ls ih =>
    cases l with
    | nil => rw [List.filter_cons_of_neg (by simp), ih, List.flatMap_cons, h.nil, List.nil_append]
    | cons c l =>
      rw [List.filter_cons_of_pos (by simp), List.flatMap_cons, ih, List.flatMap_cons]

end Wordwise

theorem wordwise_filter : Wordwise fun t => t.filter fun c => !isBlank c where
  nil := rfl
  blank := by
    intro c hc s t
    rw [List.filter_append, List.filter_cons_of_neg (by simp [hc])]

end Words

end BlockTemplate.Text
