/-!
# Ranges of numbers

Classes of characters are listed as ranges of their numbers. The ranges of a list ascend without
overlap, so a search may end at the first range that lies behind the number.
-/

namespace BlockTemplate.Text

def inRanges (n : Nat) : List (Nat × Nat) → Bool
  | [] => false
  | (lo, hi) :: rest => lo ≤ n && (n ≤ hi || inRanges n rest)

def ascendFrom (bound : Nat) : List (Nat × Nat) → Bool
  | [] => true
  | (lo, hi) :: rest => bound ≤ lo && lo ≤ hi && ascendFrom (hi + 1) rest

theorem le_of_ascendFrom {bound : Nat} {ranges : List (Nat × Nat)}
    (h : ascendFrom bound ranges = true) {r : Nat × Nat} (hr : r ∈ ranges) : bound ≤ r.1 := by
  induction ranges generalizing bound with
  | nil => simp at hr
  | cons s rest ih =>
    simp only [ascendFrom, Bool.and_eq_true, decide_eq_true_eq] at h
    rcases List.mem_cons.mp hr with rfl | hr
    · exact h.1.1
    · have := ih h.2 hr; omega

theorem inRanges_iff {n bound : Nat} {ranges : List (Nat × Nat)}
    (h : ascendFrom bound ranges = true) :
    inRanges n ranges = true ↔ ∃ r ∈ ranges, r.1 ≤ n ∧ n ≤ r.2 := by
  induction ranges generalizing bound with
  | nil => simp [inRanges]
  | cons s rest ih =>
    simp only [ascendFrom, Bool.and_eq_true, decide_eq_true_eq] at h
    simp only [inRanges, Bool.and_eq_true, Bool.or_eq_true, decide_eq_true_eq, ih h.2,
      List.mem_cons, exists_eq_or_imp]
    constructor
    · rintro ⟨hlo, hhi | hin⟩
      · exact .inl ⟨hlo, hhi⟩
      · exact .inr hin
    · rintro (⟨hlo, hhi⟩ | ⟨r, hr, hlo, hhi⟩)
      · exact ⟨hlo, .inl hhi⟩
      · exact ⟨by have := le_of_ascendFrom h.2 hr; omega, .inr ⟨r, hr, hlo, hhi⟩⟩

def apart (a b : List (Nat × Nat)) : Bool :=
  a.all fun r => b.all fun s => r.2 < s.1 || s.2 < r.1

theorem inRanges_eq_false_of_apart {n boundA boundB : Nat} {a b : List (Nat × Nat)}
    (hab : apart a b = true) (ha : ascendFrom boundA a = true) (hb : ascendFrom boundB b = true)
    (h : inRanges n a = true) : inRanges n b = false := by
  obtain ⟨r, hr, hlo, hhi⟩ := (inRanges_iff ha).mp h
  rw [Bool.eq_false_iff, Ne, inRanges_iff hb]
  rintro ⟨s, hs, hlo', hhi'⟩
  have := List.all_eq_true.mp (List.all_eq_true.mp hab r hr) s hs
  simp only [Bool.or_eq_true, decide_eq_true_eq] at this
  omega

end BlockTemplate.Text
