import BlockTemplate.Call.Basic
import BlockTemplate.Proofs.Document.Basic
import BlockTemplate.Tag.Inclusion

/-!
# Names that are handed out

The placeholders for results, for children and for inclusions have names of their own: numbers can
be told from names, and names for results are not used for anything else.
-/

namespace BlockTemplate

open Page (isVariableName)

theorem Text.decimal_inj {m n : Nat} (h : Text.decimal m = Text.decimal n) : m = n := by
  have hd := congrArg (Nat.ofDigitChars 10 · 0) h
  simpa only [Text.decimal, Nat.ofDigitChars_ten_toDigits] using hd

namespace CallId

theorem memo_inj {i j : CallId} (h : memo i = memo j) : i = j :=
  Text.decimal_inj (List.append_cancel_left (List.append_cancel_right h))

theorem isMemo_memo (id : CallId) : isMemo (memo id) = true := by
  have hdigit : ∀ c ∈ Text.decimal id, c.isDigit = true := fun c hc =>
    Nat.isDigit_of_mem_toDigits (by decide) (by decide) hc
  have htail : ∀ c ∈ "__".toList.head?, c.isDigit = false := by
    intro c hc
    cases hc
    decide
  have hexpect : Text.expect "__function_".toList (memo id) =
      some (Text.decimal id ++ "__".toList) :=
    Text.expect_eq_some.mpr (List.append_assoc "__function_".toList (Text.decimal id) "__".toList)
  rw [isMemo, hexpect]
  simp only [List.takeWhile_append_of_pos hdigit, List.dropWhile_append_of_pos hdigit]
  have hne : Text.decimal id ≠ [] := Nat.toDigits_ne_nil
  simp [hne]

end CallId

namespace Inclusion

theorem numbered_inj {m n : Nat} (h : numbered m = numbered n) : m = n :=
  Text.decimal_inj (List.append_cancel_left h)

theorem isMemo_numbered (n : Nat) : CallId.isMemo (numbered n) = false := rfl

theorem isMemo_childName_numbered (n : Nat) : CallId.isMemo (childName (numbered n)) = false := rfl

theorem isBlockChar_numbered (n : Nat) : ∀ c ∈ numbered n, Text.isBlockChar c = true := by
  have hstart : ∀ c ∈ "trigger_".toList, Text.isBlockChar c = true := List.all_eq_true.mp rfl
  intro c hc
  rcases List.mem_append.mp hc with hc | hc
  · exact hstart c hc
  · have hdigit : c.isDigit = true := Nat.isDigit_of_mem_toDigits (by decide) (by decide) hc
    simp [Text.isBlockChar, Char.isAlphanum, hdigit]

theorem numbered_not_mem {names : List Text} (h : ∀ n ∈ names, n.head? ≠ some 't') (n : Nat) :
    numbered n ∉ names := fun hm => h _ hm rfl

theorem childName_not_mem {names : List Text} (h : ∀ n ∈ names, n.head? ≠ some '_') (block : Text) :
    childName block ∉ names := fun hm => h _ hm rfl

end Inclusion

end BlockTemplate
