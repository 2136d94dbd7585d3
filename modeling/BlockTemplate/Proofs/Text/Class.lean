import BlockTemplate.Text.Blank
import Mathlib.Data.List.TakeWhile

/-!
# Character classes

The characters of names lie between the hyphen and the last letter, and no blank does.
-/

namespace BlockTemplate.Text

variable {c : Char}

theorem isVariableChar_of_isBlockChar (h : isBlockChar c = true) : isVariableChar c = true := by
  rw [isVariableChar, h, Bool.true_or]

theorem toNat_of_isVariableChar (h : isVariableChar c = true) : 45 ≤ c.toNat ∧ c.toNat ≤ 122 := by
  simp only [isVariableChar, isBlockChar, Char.isAlphanum, Bool.or_eq_true, beq_iff_eq] at h
  rcases h with (((ha | hd) | rfl) | rfl) | rfl
  · have hletter : (decide (65 ≤ c.val ∧ c.val ≤ 90) ||
        decide (97 ≤ c.val) && decide (c.val ≤ 122)) = true := ha
    simp only [Bool.or_eq_true, Bool.and_eq_true, decide_eq_true_eq,
      UInt32.le_iff_toNat_le] at hletter
    change (65 ≤ c.toNat ∧ c.toNat ≤ 90) ∨ (97 ≤ c.toNat ∧ c.toNat ≤ 122) at hletter
    omega
  · have hdigit : 48 ≤ c.toNat ∧ c.toNat ≤ 57 := Char.isDigit_iff_toNat.mp hd
    omega
  · decide
  · decide
  · decide

theorem isBlank_of_isVariableChar (h : isVariableChar c = true) : isBlank c = false := by
  have hb := toNat_of_isVariableChar h
  simp only [isBlank, Bool.or_eq_false_iff, Bool.and_eq_false_iff, decide_eq_false_iff_not,
    beq_eq_false_iff_ne]
  omega

theorem isTagBlank_of_isBlank (h : isBlank c = false) : isTagBlank c = false := by
  cases hb : isTagBlank c with
  | false => rfl
  | true => rw [isBlank_of_isTagBlank hb] at h; cases h

theorem isVariableChar_of_isFunctionChar (h : isFunctionChar c = true) :
    isVariableChar c = true := by
  simp only [isFunctionChar, isVariableChar, isBlockChar, Bool.or_eq_true] at h ⊢
  rcases h with h | h
  · exact .inl (.inl (.inl h))
  · exact .inl (.inl (.inr h))

theorem isFunctionChar_of_isFunctionStart (h : isFunctionStart c = true) :
    isFunctionChar c = true := by
  simp only [isFunctionStart, isFunctionChar, Char.isAlphanum, Bool.or_eq_true] at h ⊢
  rcases h with h | h
  · exact .inl (.inl h)
  · exact .inr h

theorem exists_cons_of_isFunctionName {f : Text} (h : isFunctionName f = true) :
    ∃ c t, f = c :: t ∧ isFunctionStart c = true ∧ ∀ x ∈ t, isFunctionChar x = true := by
  cases f with
  | nil => cases h
  | cons c t =>
    rw [isFunctionName, readFunctionName] at h
    by_cases hc : isFunctionStart c = true
    · rw [if_pos hc] at h
      refine ⟨c, t, rfl, hc, ?_⟩
      rw [← List.dropWhile_eq_nil_iff]
      cases hd : t.dropWhile isFunctionChar with
      | nil => rfl
      | cons x xs => rw [hd] at h; simp at h
    · rw [if_neg hc] at h
      simp at h

theorem readFunctionName_eq_some {t f rest : Text} (h : readFunctionName t = some (f, rest)) :
    t = f ++ rest ∧ isFunctionName f = true := by
  cases t with
  | nil => cases h
  | cons c t =>
    rw [readFunctionName] at h
    split at h
    · rename_i hc
      cases h
      have hdrop : (t.takeWhile isFunctionChar).dropWhile isFunctionChar = [] :=
        List.dropWhile_eq_nil_iff.mpr fun _ hx => List.mem_takeWhile_imp hx
      refine ⟨congrArg (c :: ·) List.takeWhile_append_dropWhile.symm, ?_⟩
      rw [isFunctionName, readFunctionName, if_pos hc, hdrop]
    · cases h

end BlockTemplate.Text
