import BlockTemplate.Text.Piece

/-!
# Texts of plain characters and codes

An escape writes each character, or each byte, either plainly or as a code that begins with a sign
that is never plain. So a reader that goes from left to right meets the sign only where a code begins,
and reads back what was written.
-/

namespace BlockTemplate.Escape

open Text (pieces pieces_of_read pieces_of_expect_none)

inductive Coded (plain : Char → Prop) (code : Text → Prop) : Text → Prop
  | nil : Coded plain code []
  | plain {c : Char} {t : Text} : plain c → Coded plain code t → Coded plain code (c :: t)
  | code {w t : Text} : code w → Coded plain code t → Coded plain code (w ++ t)

variable {plain : Char → Prop} {code : Text → Prop} {t : Text}

theorem Coded.mono {plain' : Char → Prop} (hp : ∀ c, plain c → plain' c)
    (h : Coded plain code t) : Coded plain' code t := by
  induction h with
  | nil => exact .nil
  | plain hc _ ih => exact .plain (hp _ hc) ih
  | code hw _ ih => exact .code hw ih

theorem Coded.of_mem (h : Coded plain code t) {c : Char} (hc : c ∈ t) :
    plain c ∨ ∃ w, code w ∧ c ∈ w := by
  induction h with
  | nil => cases hc
  | plain hd _ ih =>
    rcases List.mem_cons.mp hc with rfl | hc
    · exact .inl hd
    · exact ih hc
  | code hw _ ih =>
    rcases List.mem_append.mp hc with hc | hc
    · exact .inr ⟨_, hw, hc⟩
    · exact ih hc

theorem coded_flatMap {α : Type} {f : α → Text}
    (hf : ∀ a, (∃ c, f a = [c] ∧ plain c) ∨ code (f a)) (xs : List α) :
    Coded plain code (xs.flatMap f) := by
  induction xs with
  | nil => exact .nil
  | cons a xs ih =>
    rw [List.flatMap_cons]
    rcases hf a with ⟨c, ha, hc⟩ | ha
    · rw [ha]
      exact .plain hc ih
    · exact .code ha ih

theorem Coded.begins {x : Char} (hplain : ¬ plain x)
    (hcode : ∀ w, code w → ∃ w', w = x :: w' ∧ x ∉ w') (h : Coded plain code t) {a b : Text}
    (ht : t = a ++ x :: b) : ∃ w, code w ∧ w <+: x :: b := by
  induction h generalizing a with
  | nil => simp at ht
  | @plain c t hc _ ih =>
    cases a with
    | nil =>
      rw [List.nil_append, List.cons.injEq] at ht
      exact absurd (ht.1 ▸ hc) hplain
    | cons d a =>
      rw [List.cons_append, List.cons.injEq] at ht
      exact ih ht.2
  | @code w t hw _ ih =>
    -- The sign lies in the rest, or in the code, and then at its head.
    rcases List.append_eq_append_iff.mp ht with ⟨o, -, hrest⟩ | ⟨o, hsplit, hrest⟩
    · exact ih hrest
    · cases o with
      | nil => exact ih (a := []) hrest.symm
      | cons y o =>
        rw [List.cons_append, List.cons.injEq] at hrest
        obtain ⟨w', hw', hnot⟩ := hcode w hw
        cases a with
        | nil => exact ⟨w, hw, by rw [hsplit, hrest.1, hrest.2]; exact List.prefix_append _ t⟩
        | cons d a =>
          rw [hsplit, List.cons_append, List.cons.injEq] at hw'
          refine absurd ?_ hnot
          rw [← hw'.2, hrest.1]
          exact List.mem_append_right _ List.mem_cons_self

def decodeWith (x : Char) (read : Text → Option (Char × Text)) (t : Text) : Text :=
  Piece.fill (fun c => some [c]) (pieces [x] read t)

theorem decodeWith_flatMap {x : Char} {read : Text → Option (Char × Text)} {f : Char → Text}
    (hf : ∀ c, (f c = [c] ∧ c ≠ x) ∨
      ∃ used, f c = x :: used ∧ ∀ rest, read (used ++ rest) = some (c, rest)) (t : Text) :
    decodeWith x read (t.flatMap f) = t := by
  induction t with
  | nil => rfl
  | cons c t ih =>
    rw [List.flatMap_cons, decodeWith]
    rcases hf c with ⟨hc, hne⟩ | ⟨used, hc, hread⟩
    · have hopen : Text.expect [x] (c :: t.flatMap f) = none := if_neg (Ne.symm hne)
      rw [hc, List.singleton_append, pieces_of_expect_none hopen]
      exact congrArg (c :: ·) ih
    · have hmark := pieces_of_read (List.cons_ne_nil x []) (hread (t.flatMap f))
      rw [hc, show x :: used ++ t.flatMap f = [x] ++ (used ++ t.flatMap f) from rfl, hmark]
      exact congrArg (c :: ·) ih

end BlockTemplate.Escape
