import BlockTemplate.Proofs.Text.Cut

/-!
# Lines and offsets

A text is complete lines, each with the newline that ends it, and a last line without one. An offset
in bytes is a place between two characters exactly if the text can be parted there.
-/

namespace BlockTemplate.Text

section Parts

variable {sep : Char}

theorem splitOn_ne_nil (t : Text) : splitOn sep t ≠ [] := by
  cases t with
  | nil => simp [splitOn]
  | cons c t =>
    rw [splitOn]
    split
    · simp
    · split <;> simp

theorem splitOn_append (s t : Text) :
    splitOn sep (s ++ sep :: t) = splitOn sep s ++ splitOn sep t := by
  induction s with
  | nil => simp [splitOn]
  | cons c s ih =>
    rw [List.cons_append, splitOn, splitOn, ih]
    by_cases hc : c = sep
    · simp [hc]
    · rw [if_neg hc, if_neg hc]
      cases hs : splitOn sep s with
      | nil => exact absurd hs (splitOn_ne_nil s)
      | cons part parts => simp

theorem splitOn_of_not_mem {t : Text} (h : sep ∉ t) : splitOn sep t = [t] := by
  induction t with
  | nil => rfl
  | cons c t ih =>
    rw [List.mem_cons, not_or] at h
    rw [splitOn, if_neg (Ne.symm h.1), ih h.2]

end Parts

def unlines (ls : List Text) : Text := ls.flatMap (· ++ ['\n'])

def lineStart (t : Text) : Text := (t.reverse.takeWhile (· ≠ '\n')).reverse

def lineEnd (t : Text) : Text := t.takeWhile (· ≠ '\n')

variable {ls : List Text} {s t last : Text}

theorem unlines_cons (l : Text) (ls : List Text) : unlines (l :: ls) = l ++ '\n' :: unlines ls := by
  rw [unlines, List.flatMap_cons, List.append_assoc]
  rfl

theorem exists_unlines (t : Text) :
    ∃ ls last, t = unlines ls ++ last ∧ (∀ l ∈ ls, '\n' ∉ l) ∧ '\n' ∉ last := by
  induction t with
  | nil => exact ⟨[], [], rfl, by simp, by simp⟩
  | cons c t ih =>
    obtain ⟨ls, last, rfl, hls, hlast⟩ := ih
    by_cases hc : c = '\n'
    · subst hc
      refine ⟨[] :: ls, last, by rw [unlines_cons]; rfl, ?_, hlast⟩
      simpa using hls
    · cases ls with
      | nil => exact ⟨[], c :: last, rfl, by simp, by simp [Ne.symm hc, hlast]⟩
      | cons l ls =>
        refine ⟨(c :: l) :: ls, last, by rw [unlines_cons, unlines_cons]; rfl, ?_, hlast⟩
        rw [List.forall_mem_cons] at hls ⊢
        refine ⟨?_, hls.2⟩
        rw [List.mem_cons, not_or]
        exact ⟨Ne.symm hc, hls.1⟩

theorem plain_of_not_mem (h : '\n' ∉ s) : ∀ c ∈ s, decide (c ≠ '\n') = true := by
  intro c hc
  refine decide_eq_true ?_
  rintro rfl
  exact h hc

theorem lineStart_unlines (ls : List Text) (h : '\n' ∉ last) :
    lineStart (unlines ls ++ last) = last := by
  have hlast : ∀ c ∈ last.reverse, decide (c ≠ '\n') = true :=
    plain_of_not_mem fun hm => h (List.mem_reverse.mp hm)
  have hend : ∀ c ∈ (unlines ls).reverse.head?, decide (c ≠ '\n') = false := by
    intro c hc
    rw [List.head?_reverse] at hc
    have hsuffix : c = '\n' := by
      rcases List.eq_nil_or_concat ls with rfl | ⟨init, l, rfl⟩
      · cases hc
      · simpa [unlines] using hc.symm
    simp [hsuffix]
  rw [lineStart, List.reverse_append, takeWhile_append hlast hend, List.reverse_reverse]

theorem count_unlines (hls : ∀ l ∈ ls, '\n' ∉ l) (h : '\n' ∉ last) :
    (unlines ls ++ last).count '\n' = ls.length := by
  induction ls with
  | nil => exact List.count_eq_zero.mpr h
  | cons l ls ih =>
    rw [List.forall_mem_cons] at hls
    rw [unlines_cons, List.append_assoc, List.count_append, List.count_eq_zero.mpr hls.1,
      List.cons_append, List.count_cons_self, ih hls.2]
    simp

theorem lines_append (s t : Text) : lines (s ++ '\n' :: t) = splitOn '\n' s ++ lines t := by
  rw [lines, lines, splitOn_append, List.reverse_append]
  cases h : (splitOn '\n' t).reverse with
  | nil => exact absurd (List.reverse_eq_nil_iff.mp h) (splitOn_ne_nil t)
  | cons part parts => cases part <;> simp

theorem lines_unlines (hls : ∀ l ∈ ls, '\n' ∉ l) (t : Text) :
    lines (unlines ls ++ t) = ls ++ lines t := by
  induction ls with
  | nil => rfl
  | cons l ls ih =>
    rw [List.forall_mem_cons] at hls
    rw [unlines_cons, List.append_assoc, List.cons_append, lines_append, splitOn_of_not_mem hls.1,
      ih hls.2]
    rfl

theorem lineEnd_append (h : '\n' ∉ s) (t : Text) : lineEnd (s ++ t) = s ++ lineEnd t :=
  List.takeWhile_append_of_pos (plain_of_not_mem h)

theorem lines_eq_cons (h : t ≠ []) : ∃ rest, lines t = lineEnd t :: rest := by
  obtain ⟨ls, last, rfl, hls, hlast⟩ := exists_unlines t
  cases ls with
  | nil =>
    refine ⟨[], ?_⟩
    have hall : lineEnd last = last := List.takeWhile_eq_self_iff.mpr (plain_of_not_mem hlast)
    change lines last = [lineEnd last]
    rw [hall, lines, splitOn_of_not_mem hlast]
    cases last with
    | nil => exact absurd rfl h
    | cons c last => rfl
  | cons l ls =>
    rw [List.forall_mem_cons] at hls
    have hstart : lineEnd (unlines (l :: ls) ++ last) = l := by
      rw [unlines_cons, List.append_assoc, List.cons_append]
      exact takeWhile_append (plain_of_not_mem hls.1) (by simp)
    rw [hstart, unlines_cons, List.append_assoc, List.cons_append, lines_append,
      splitOn_of_not_mem hls.1]
    exact ⟨_, rfl⟩

theorem size_eq_zero_iff : size s = 0 ↔ s = [] := by
  cases s with
  | nil => simp
  | cons c s =>
    have := c.utf8Size_pos
    simp only [size_cons, reduceCtorEq, iff_false]
    omega

theorem cutAt?_eq_some {n : Nat} {rest : Text} :
    cutAt? n t = some (s, rest) ↔ t = s ++ rest ∧ s.size = n := by
  induction t generalizing n s with
  | nil =>
    cases n with
    | zero => simp +contextual [cutAt?, eq_comm]
    | succ n => cases s <;> simp [cutAt?]
  | cons c t ih =>
    cases n with
    | zero =>
      rw [cutAt?, size_eq_zero_iff]
      constructor
      · rintro ⟨⟩
        exact ⟨rfl, rfl⟩
      · rintro ⟨h, rfl⟩
        rw [h]
        rfl
    | succ n =>
      rw [cutAt?]
      cases s with
      | nil => split <;> simp
      | cons d s =>
        have hsize : size (d :: s) = n + 1 ↔ d.utf8Size ≤ n + 1 ∧ size s = n + 1 - d.utf8Size := by
          rw [size_cons]
          omega
        rw [hsize, List.cons_append, List.cons.injEq]
        split
        · rename_i hle
          simp only [Option.map_eq_some_iff, Prod.exists, Prod.mk.injEq, List.cons.injEq]
          constructor
          · rintro ⟨s', rest', h, ⟨rfl, rfl⟩, rfl⟩
            obtain ⟨ht, hs⟩ := ih.mp h
            exact ⟨⟨rfl, ht⟩, hle, hs⟩
          · rintro ⟨⟨rfl, ht⟩, -, hs⟩
            exact ⟨s, rest, ih.mpr ⟨ht, hs⟩, ⟨rfl, rfl⟩, rfl⟩
        · rename_i hlt
          simp only [reduceCtorEq, false_iff]
          rintro ⟨⟨rfl, -⟩, hle, -⟩
          exact hlt hle

theorem slice?_append (before s after : Text) :
    slice? (before ++ (s ++ after)) (before.size, before.size + s.size) = some s := by
  have hend : cutAt? (before.size + s.size) (before ++ (s ++ after)) =
      some (before ++ s, after) := cutAt?_eq_some.mpr ⟨by simp, size_append before s⟩
  have hstart : cutAt? before.size (before ++ s) = some (before, s) :=
    cutAt?_eq_some.mpr ⟨rfl, rfl⟩
  simp only [slice?, hend, hstart, Option.bind_eq_bind, Option.bind_some, Option.pure_def]

end BlockTemplate.Text
