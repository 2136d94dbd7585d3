import BlockTemplate.Engine
import BlockTemplate.Proofs.Document.Directive

/-!
# Files that include each other

Files of texts and inclusions may include each other in any way, in circles as well. Where no chain of
inclusions from a file goes on for ever, the file stands for its text with all inclusions put in.
-/

namespace BlockTemplate

/-- The texts of files with their inclusions, by path. -/
abbrev Library := Text → Strand Directive

namespace Library

variable {l : Library} {file path : Text} {m n : Nat}

/-- One file leads to another through a number of inclusions, each in the file before. -/
inductive Chain (l : Library) : Nat → Text → Text → Prop
  | nil (file : Text) : Chain l 0 file file
  | cons {n : Nat} {file path : Text} (d : Directive) (hd : d ∈ (l file).marks)
      (h : Chain l n d.path path) : Chain l (n + 1) file path

/-- The text is that of the file with each inclusion replaced by the text of its file, in the same
way. -/
inductive Pasted (l : Library) : Text → Text → Prop
  | file (file : Text) (f : Directive → Text) (h : ∀ d ∈ (l file).marks, Pasted l d.path (f d)) :
      Pasted l file ((l file).write f)

def Within (l : Library) (bound : Nat) (file : Text) : Prop :=
  ∀ n path, Chain l n file path → n < bound

def pasted (l : Library) : (depth : Nat) → (file : Text) → Text
  | 0, _ => []
  | depth + 1, file => (l file).write fun d => pasted l depth d.path

/-- The files of the library, as far as the file leads to them, are there. -/
def Stored (l : Library) (e : Engine) (fs : Files) (file : Text) : Prop :=
  ∀ n path, Chain l n file path →
    fs.read (e.path path) = .ok ((l path).write Directive.print) ∧ (l path).Tagged

theorem Chain.trans {middle : Text} (h₁ : Chain l m file middle) (h₂ : Chain l n middle path) :
    Chain l (m + n) file path := by
  induction h₁ with
  | nil file =>
    rw [Nat.zero_add]
    exact h₂
  | @cons k file middle d hd _ ih =>
    rw [Nat.add_right_comm]
    exact .cons d hd (ih h₂)

theorem not_within_zero : ¬ l.Within 0 file := fun h => absurd (h 0 file (.nil file)) (Nat.lt_irrefl 0)

theorem within_succ_iff : l.Within (n + 1) file ↔ ∀ d ∈ (l file).marks, l.Within n d.path := by
  constructor
  · intro h d hd m path hc
    exact Nat.lt_of_succ_lt_succ (h (m + 1) path (.cons d hd hc))
  · intro h m path hc
    cases hc with
    | nil => exact Nat.succ_pos n
    | cons d hd hc => exact Nat.succ_lt_succ (h d hd _ path hc)

instance decidableWithin (l : Library) : (bound : Nat) → (file : Text) → Decidable (l.Within bound file)
  | 0, _ => .isFalse not_within_zero
  | bound + 1, file =>
    have (d : Directive) : Decidable (l.Within bound d.path) := decidableWithin l bound d.path
    decidable_of_iff (∀ d ∈ (l file).marks, l.Within bound d.path) within_succ_iff.symm

theorem Chain.unbounded (h : Chain l n file file) (hn : 0 < n) (bound : Nat) :
    ¬ l.Within bound file := by
  have hlong : ∀ k, Chain l (k * n) file file := by
    intro k
    induction k with
    | zero =>
      rw [Nat.zero_mul]
      exact .nil file
    | succ k ih =>
      rw [Nat.succ_mul]
      exact ih.trans h
  intro hw
  have hlt := hw _ _ (hlong bound)
  have hle := Nat.le_mul_of_pos_right bound hn
  omega

theorem pasted_spec {depth : Nat} (h : l.Within depth file) : l.Pasted file (l.pasted depth file) := by
  induction depth generalizing file with
  | zero => exact absurd h not_within_zero
  | succ depth ih => exact .file file _ fun d hd => ih (within_succ_iff.mp h d hd)

theorem Pasted.unique {text text' : Text} (h : l.Pasted file text) (h' : l.Pasted file text') :
    text = text' := by
  induction h generalizing text' with
  | file file f _ ih =>
    cases h' with
    | file _ g hg => exact Strand.write_congr fun d hd => ih d hd (hg d hd)

theorem Stored.of_mem {e : Engine} {fs : Files} (h : l.Stored e fs file) {d : Directive}
    (hd : d ∈ (l file).marks) : l.Stored e fs d.path := fun n path hc => h (n + 1) path (.cons d hd hc)

theorem stored_of_closed {e : Engine} {fs : Files} {files : List Text} (hfile : file ∈ files)
    (hclosed : ∀ f ∈ files, ∀ d ∈ (l f).marks, d.path ∈ files)
    (hthere : ∀ f ∈ files, fs.read (e.path f) = .ok ((l f).write Directive.print) ∧ (l f).Tagged) :
    l.Stored e fs file := by
  intro n path hc
  induction hc with
  | nil file => exact hthere file hfile
  | cons d hd _ ih => exact ih (hclosed _ hfile d hd)

theorem brace_not_mem_pasted {e : Engine} {fs : Files} (h : l.Stored e fs file) (depth : Nat) :
    '\x7b' ∉ l.pasted depth file := by
  induction depth generalizing file with
  | zero => exact List.not_mem_nil
  | succ depth ih =>
    refine Strand.not_mem_write ?_ fun d hd => ih (h.of_mem hd)
    intro t ht
    exact (Markup.plainText_spec ((h 0 file (.nil file)).2.texts t ht)).1

end Library

end BlockTemplate
