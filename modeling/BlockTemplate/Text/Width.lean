import BlockTemplate.Text.Basic
import BlockTemplate.Text.Follower

/-!
# Terminal width

The number of columns a text takes in a terminal, used to place the carets under a faulty call.
A newline takes none, and neither does a carriage return in front of it. Characters that are shown
as one are measured as one.
-/

namespace BlockTemplate.Text

def measured : Text → Int × Follower
  | [] => (0, .nothing)
  | c :: t =>
    let (m, f) := measured t
    let (n, f) := f.step c
    (m + n, f)

def width (t : Text) : Nat := (measured t).1.toNat

theorem owed_measured_le (t : Text) : (measured t).2.opening.owed ≤ (measured t).1 := by
  induction t with
  | nil => decide
  | cons c t ih =>
    have := (measured t).2.owed_step_le c
    simp only [measured]
    omega

theorem coe_width (t : Text) : (width t : Int) = (measured t).1 := by
  have := owed_measured_le t
  have := (measured t).2.opening.owed_nonneg
  unfold width
  omega

theorem width_eq_length {t : Text} (h : ∀ c ∈ t, c.toNat ≤ 0xA0 ∧ c ≠ '\n') :
    width t = t.length := by
  have hm : measured t = ((t.length : Int), .nothing) := by
    induction t with
    | nil => rfl
    | cons c t ih =>
      obtain ⟨hc, hn⟩ := h c List.mem_cons_self
      have := ih fun c hc => h c (List.mem_cons_of_mem _ hc)
      simp [measured, this, Follower.step_nothing hc hn]
  simp [width, hm]

end BlockTemplate.Text
