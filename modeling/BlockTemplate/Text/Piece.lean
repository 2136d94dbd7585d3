import BlockTemplate.Text.Basic

/-!
# Cutting a text at marks

Placeholders, tags and calls are all found in one way. A mark begins with a fixed opening text; at
each opening a reader is tried on what follows. Where it succeeds the scan goes on behind the mark,
and where it fails the opening is literal text as a whole and the scan goes on behind the opening.
The result lists every piece of the text, so joining the pieces gives the text back.
-/

namespace BlockTemplate

/-- A piece of a text: a literal character, or a mark with what was read from it. -/
inductive Piece (α : Type) where
  | char (c : Char)
  | mark (raw : Text) (value : α)
  deriving Repr, DecidableEq

namespace Piece

variable {α : Type}

def raw : Piece α → Text
  | .char c => [c]
  | .mark raw _ => raw

def value? : Piece α → Option α
  | .char _ => none
  | .mark _ v => some v

def fill (f : α → Option Text) (pieces : List (Piece α)) : Text :=
  pieces.flatMap fun
    | .char c => [c]
    | .mark raw v => (f v).getD raw

end Piece

namespace Text

variable {α : Type}

/--
Cuts a text of which the first `passed` characters belong to a mark already listed and the next
`literal` characters cannot begin an opening, because they lie in an opening that was no mark.
-/
def piecesFrom (opening : Text) (read : Text → Option (α × Text)) :
    (passed literal : Nat) → Text → List (Piece α)
  | _, _, [] => []
  | passed + 1, literal, _ :: t => piecesFrom opening read passed literal t
  | 0, literal + 1, c :: t => .char c :: piecesFrom opening read 0 literal t
  | 0, 0, c :: t =>
    match expect opening (c :: t) with
    | none => .char c :: piecesFrom opening read 0 0 t
    | some after =>
      match read after with
      | none => .char c :: piecesFrom opening read 0 (opening.length - 1) t
      | some (v, rest) =>
        .mark ((c :: t).take (t.length + 1 - rest.length)) v ::
          piecesFrom opening read (t.length - rest.length) 0 t

def pieces (opening : Text) (read : Text → Option (α × Text)) (t : Text) : List (Piece α) :=
  piecesFrom opening read 0 0 t

def Leaves (read : Text → Option (α × Text)) : Prop :=
  ∀ {t v rest}, read t = some (v, rest) → rest <:+ t

variable {opening : Text} {read : Text → Option (α × Text)}

theorem piecesFrom_nil (passed literal : Nat) : piecesFrom opening read passed literal [] = [] := by
  simp [piecesFrom]

theorem piecesFrom_passed (passed literal : Nat) (t : Text) :
    piecesFrom opening read passed literal t =
      piecesFrom opening read 0 literal (t.drop passed) := by
  induction passed generalizing t with
  | zero => rfl
  | succ passed ih =>
    cases t with
    | nil => simp [piecesFrom_nil]
    | cons c t => rw [piecesFrom, ih, List.drop_succ_cons]

theorem piecesFrom_literal (literal : Nat) (t : Text) :
    piecesFrom opening read 0 literal t =
      (t.take literal).map .char ++ pieces opening read (t.drop literal) := by
  induction literal generalizing t with
  | zero => rfl
  | succ literal ih =>
    cases t with
    | nil => simp [piecesFrom_nil, pieces]
    | cons c t => simp [piecesFrom, ih]

@[simp] theorem pieces_nil : pieces opening read [] = [] := piecesFrom_nil 0 0

theorem pieces_of_expect_none {c : Char} {t : Text} (h : expect opening (c :: t) = none) :
    pieces opening read (c :: t) = .char c :: pieces opening read t := by
  simp [pieces, piecesFrom, h]

theorem pieces_of_read_none {rest : Text} (ho : opening ≠ []) (h : read rest = none) :
    pieces opening read (opening ++ rest) = opening.map .char ++ pieces opening read rest := by
  cases hw : opening with
  | nil => exact absurd hw ho
  | cons c word =>
    have he : expect opening (c :: (word ++ rest)) = some rest :=
      expect_eq_some.mpr (by simp [hw])
    rw [← hw, pieces, hw, List.cons_append, ← hw, piecesFrom, he]
    simp only [h]
    rw [piecesFrom_literal]
    simp [hw]

theorem pieces_of_read {used rest : Text} {v : α} (ho : opening ≠ [])
    (h : read (used ++ rest) = some (v, rest)) :
    pieces opening read (opening ++ (used ++ rest)) =
      .mark (opening ++ used) v :: pieces opening read rest := by
  cases hw : opening with
  | nil => exact absurd hw ho
  | cons c word =>
    have he : expect opening (c :: (word ++ (used ++ rest))) = some (used ++ rest) :=
      expect_eq_some.mpr (by simp [hw])
    rw [← hw, pieces, hw, List.cons_append, ← hw, piecesFrom, he]
    simp only [h]
    rw [piecesFrom_passed]
    have hd : (word ++ (used ++ rest)).length - rest.length = (word ++ used).length := by
      simp only [List.length_append]; omega
    have ht : (word ++ (used ++ rest)).length + 1 - rest.length = (word ++ used).length + 1 := by
      simp only [List.length_append]; omega
    rw [hd, ht, ← List.append_assoc, List.drop_left, List.take_succ_cons, List.take_left, hw]
    simp [pieces]

theorem pieces_induction {motive : Text → Prop} (ho : opening ≠ []) (hl : Leaves read)
    (nil : motive [])
    (char : ∀ c t, expect opening (c :: t) = none → motive t → motive (c :: t))
    (stray : ∀ t, read t = none → motive t → motive (opening ++ t))
    (mark : ∀ used rest v, read (used ++ rest) = some (v, rest) → motive rest →
      motive (opening ++ (used ++ rest)))
    (t : Text) : motive t := by
  have hpos := List.length_pos_iff.mpr ho
  induction hn : t.length using Nat.strongRecOn generalizing t with
  | _ n ih =>
    cases t with
    | nil => exact nil
    | cons c t =>
      cases he : expect opening (c :: t) with
      | none => exact char c t he (ih t.length (by simp [← hn]) t rfl)
      | some after =>
        have heq := expect_eq_some.mp he
        have hlen : (c :: t).length = opening.length + after.length := by rw [heq, List.length_append]
        rw [heq]
        cases hr : read after with
        | none => exact stray after hr (ih after.length (by omega) after rfl)
        | some p =>
          obtain ⟨v, rest⟩ := p
          obtain ⟨used, rfl⟩ := hl hr
          rw [List.length_append] at hlen
          exact mark used rest v hr (ih rest.length (by omega) rest rfl)

theorem flatMap_raw_pieces (ho : opening ≠ []) (hl : Leaves read) (t : Text) :
    (pieces opening read t).flatMap Piece.raw = t := by
  refine pieces_induction (motive := fun t => (pieces opening read t).flatMap Piece.raw = t) ho hl
    (by simp) ?_ ?_ ?_ t
  · intro c t he ih
    rw [pieces_of_expect_none he, List.flatMap_cons, ih]
    rfl
  · intro t hr ih
    rw [pieces_of_read_none ho hr, List.flatMap_append, ih]
    simp [List.flatMap_map, Piece.raw]
  · intro used rest v hr ih
    rw [pieces_of_read ho hr, List.flatMap_cons, ih, Piece.raw, List.append_assoc]

def replaceAll (old new : Text) (t : Text) : Text :=
  Piece.fill (fun () => some new) (pieces old (fun rest => some ((), rest)) t)

end Text

end BlockTemplate
