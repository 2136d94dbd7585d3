import BlockTemplate.Proofs.Text.Class
import BlockTemplate.Text.Piece
import Mathlib.Data.List.Infix

/-!
# Cutting texts that were put together

A text that holds no opening is cut into characters, wherever it stands, as long as what follows it
cannot complete an opening that it begins.
-/

namespace BlockTemplate.Text

variable {α : Type} {opening : Text} {read : Text → Option (α × Text)}

theorem read_of_pieces_eq (ho : opening ≠ []) (hl : Leaves read) {t raw : Text} {v : α}
    {before after : List (Piece α)} (h : pieces opening read t = before ++ .mark raw v :: after) :
    ∃ used, raw = opening ++ used ∧
      read (used ++ after.flatMap Piece.raw) = some (v, after.flatMap Piece.raw) := by
  revert before
  refine pieces_induction (motive := fun t => ∀ {before},
    pieces opening read t = before ++ .mark raw v :: after → ∃ used, raw = opening ++ used ∧
      read (used ++ after.flatMap Piece.raw) = some (v, after.flatMap Piece.raw)) ho hl ?_ ?_ ?_ ?_ t
  · intro before h
    simp at h
  · intro c t he ih before h
    rw [pieces_of_expect_none he] at h
    cases before with
    | nil => cases h
    | cons p before => exact ih (List.cons.inj h).2
  · intro t hr ih before h
    rw [pieces_of_read_none ho hr] at h
    rcases List.append_eq_append_iff.mp h with ⟨o, -, ho'⟩ | ⟨o, ho', hrest⟩
    · exact ih ho'
    · cases o with
      | nil =>
        have hpieces : pieces opening read t = [] ++ .mark raw v :: after := hrest.symm
        exact ih hpieces
      | cons p o =>
        have hmem : .mark raw v ∈ opening.map Piece.char := by
          rw [ho', (List.cons.inj hrest).1]
          exact List.mem_append_right _ List.mem_cons_self
        simp at hmem
  · intro used rest w hr ih before h
    rw [pieces_of_read ho hr] at h
    cases before with
    | nil =>
      rw [List.nil_append, List.cons.injEq, Piece.mark.injEq] at h
      obtain ⟨⟨rfl, rfl⟩, rfl⟩ := h
      rw [flatMap_raw_pieces ho hl]
      exact ⟨used, rfl, hr⟩
    | cons p before => exact ih (List.cons.inj h).2

theorem read_of_mem_pieces (ho : opening ≠ []) (hl : Leaves read) {t raw : Text} {v : α}
    (h : .mark raw v ∈ pieces opening read t) :
    ∃ used rest, raw = opening ++ used ∧ read (used ++ rest) = some (v, rest) := by
  obtain ⟨before, after, hsplit⟩ := List.append_of_mem h
  obtain ⟨used, hraw, hread⟩ := read_of_pieces_eq ho hl hsplit
  exact ⟨used, _, hraw, hread⟩

def Clear (opening a rest : Text) : Prop := ∀ s, s ≠ [] → s <:+ a → expect opening (s ++ rest) = none

theorem Clear.tail {c : Char} {a rest : Text} (h : Clear opening (c :: a) rest) :
    Clear opening a rest := fun s hs hsa => h s hs (hsa.trans (List.suffix_cons c a))

theorem pieces_append_of_clear {a rest : Text} (h : Clear opening a rest) :
    pieces opening read (a ++ rest) = a.map .char ++ pieces opening read rest := by
  induction a with
  | nil => rfl
  | cons c a ih =>
    have hc : expect opening (c :: (a ++ rest)) = none := h (c :: a) (by simp) List.suffix_rfl
    rw [List.cons_append, pieces_of_expect_none hc, ih h.tail]
    rfl

theorem clear_of_not_infix {a rest : Text} (hin : ¬ opening <:+: a)
    (hrest : ∀ c ∈ rest.head?, c ∉ opening.tail) : Clear opening a rest := by
  intro s hs hsa
  cases he : expect opening (s ++ rest) with
  | none => rfl
  | some after =>
    have heq := expect_eq_some.mp he
    rcases List.append_eq_append_iff.mp heq with ⟨o, ho, hr⟩ | ⟨o, ho, -⟩
    · cases o with
      | nil =>
        rw [List.append_nil] at ho
        exact absurd (ho ▸ hsa.isInfix) hin
      | cons c o =>
        obtain ⟨x, s', rfl⟩ := List.exists_cons_of_ne_nil hs
        have hmem : c ∈ opening.tail := by
          rw [ho, List.cons_append, List.tail_cons]
          exact List.mem_append_right _ List.mem_cons_self
        rw [hr] at hrest
        exact absurd hmem (hrest c rfl)
    · have hpre : opening <:+: s := ⟨[], o, by rw [List.nil_append, ← ho]⟩
      exact absurd (hpre.trans hsa.isInfix) hin

theorem clear_of_head {a : Text} (ho : opening ≠ []) (h : ∀ c ∈ a, opening.head? ≠ some c)
    (rest : Text) : Clear opening a rest := by
  intro s hs hsa
  cases he : expect opening (s ++ rest) with
  | none => rfl
  | some after =>
    have heq := expect_eq_some.mp he
    obtain ⟨c, s, rfl⟩ := List.exists_cons_of_ne_nil hs
    obtain ⟨x, word, rfl⟩ := List.exists_cons_of_ne_nil ho
    have hcx : c = x := congrArg (·.headD c) heq
    exact absurd (congrArg some hcx.symm) (h c (hsa.mem List.mem_cons_self))

theorem Clear.append {a b rest : Text} (ha : Clear opening a (b ++ rest))
    (hb : Clear opening b rest) : Clear opening (a ++ b) rest := by
  intro s hs ⟨u, hu⟩
  rcases List.append_eq_append_iff.mp hu with ⟨s', rfl, rfl⟩ | ⟨u', -, hb'⟩
  · cases s' with
    | nil => exact hb _ hs List.suffix_rfl
    | cons c s' =>
      rw [List.append_assoc]
      exact ha (c :: s') (by simp) (List.suffix_append u _)
  · exact hb s hs ⟨u', hb'.symm⟩

theorem takeWhile_append {p : Char → Bool} {a rest : Text} (ha : ∀ c ∈ a, p c = true)
    (hr : ∀ c ∈ rest.head?, p c = false) : (a ++ rest).takeWhile p = a := by
  rw [List.takeWhile_append_of_pos ha]
  cases rest with
  | nil => rw [List.takeWhile_nil, List.append_nil]
  | cons c rest =>
    have hc : p c = false := hr c rfl
    rw [List.takeWhile_cons_of_neg (by simp [hc]), List.append_nil]

theorem dropWhile_append {p : Char → Bool} {a rest : Text} (ha : ∀ c ∈ a, p c = true)
    (hr : ∀ c ∈ rest.head?, p c = false) : (a ++ rest).dropWhile p = rest := by
  rw [List.dropWhile_append_of_pos ha]
  cases rest with
  | nil => rfl
  | cons c rest =>
    have hc : p c = false := hr c rfl
    rw [List.dropWhile_cons_of_neg (by simp [hc])]

theorem readSome_append {p : Char → Bool} {a rest : Text} (hne : a ≠ [])
    (ha : ∀ c ∈ a, p c = true) (hr : ∀ c ∈ rest.head?, p c = false) :
    readSome p (a ++ rest) = some (a, rest) := by
  rw [readSome, takeWhile_append ha hr, dropWhile_append ha hr]
  obtain ⟨c, a, rfl⟩ := List.exists_cons_of_ne_nil hne
  rfl

theorem expect_append {β : Type} [DecidableEq β] (word t : List β) :
    expect word (word ++ t) = some t := expect_eq_some.mpr rfl

theorem readFunctionName_append {f rest : Text} (hf : isFunctionName f = true)
    (hr : ∀ c ∈ rest.head?, isFunctionChar c = false) :
    readFunctionName (f ++ rest) = some (f, rest) := by
  obtain ⟨c, t, rfl, hc, ht⟩ := exists_cons_of_isFunctionName hf
  rw [List.cons_append, readFunctionName, if_pos hc, takeWhile_append ht hr,
    dropWhile_append ht hr]

end BlockTemplate.Text
