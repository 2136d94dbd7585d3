import BlockTemplate.Proofs.Call.Memo
import BlockTemplate.Proofs.Document.Placeholders
import BlockTemplate.Proofs.Document.Splice

/-!
# Sections

A section says what a block is without slots and numbers: its content is a sequence of parts, and it
names its children and calls. A block shows a section under a numbering of calls.
-/

namespace BlockTemplate

inductive Part where
  | char (c : Char)
  | var (name : Text)
  | child (block : Text)
  | result (c : Call)
  deriving Repr, DecidableEq

/-- A block by what it says. -/
structure Section where
  name : Text
  parts : List Part
  vars : List Text
  calls : List Call
  children : List Text
  deriving Repr, DecidableEq

namespace Part

variable {number number' : Call → CallId} {p : Part} {ps qs : List Part} {σ : Text → Option Text}

def key (number : Call → CallId) : Part → Option Text
  | .char _ => none
  | .var name => some name
  | .child block => some (childName block)
  | .result c => some (number c).memo

def text (number : Call → CallId) : Part → Text
  | .char c => [c]
  | .var name => Markup.token name
  | .child block => Markup.token (childName block)
  | .result c => Markup.token (number c).memo

def textAll (number : Call → CallId) (ps : List Part) : Text := ps.flatMap (text number)

def Clear : Part → Prop
  | .char c => c ≠ '\x7b'
  | .var name => Page.isVariableName name = true ∧ CallId.isMemo name = false
  | .child block => Page.isVariableName (childName block) = true ∧
    CallId.isMemo (childName block) = false
  | .result _ => True

theorem textAll_cons : textAll number (p :: ps) = p.text number ++ textAll number ps :=
  List.flatMap_cons

theorem textAll_append : textAll number (ps ++ qs) = textAll number ps ++ textAll number qs :=
  List.flatMap_append

theorem textAll_chars (t : Text) : textAll number (t.map .char) = t := by
  induction t with
  | nil => rfl
  | cons c t ih => rw [List.map_cons, textAll_cons, ih]; rfl

theorem isVariableName_memo (id : CallId) : Page.isVariableName id.memo = true := by
  have hall : ∀ c ∈ id.memo, Text.isVariableChar c = true := fun c hc =>
    CallId.isVariableChar_memo id c hc
  have hend : "__".toList ≠ [] := by decide
  have hne : id.memo ≠ [] := List.append_ne_nil_of_right_ne_nil _ hend
  simp only [Page.isVariableName, Bool.and_eq_true, decide_eq_true_eq, List.all_eq_true]
  exact ⟨hne, hall⟩

theorem isVariableName_of_key (h : p.Clear) {x : Text} (hx : p.key number = some x) :
    Page.isVariableName x = true := by
  cases p with
  | char c => cases hx
  | var name => cases hx; exact h.1
  | child block => cases hx; exact h.1
  | result c => cases hx; exact isVariableName_memo _

theorem text_of_key {x : Text} (hx : p.key number = some x) : p.text number = Markup.token x := by
  cases p with
  | char c => cases hx
  | var name => cases hx; rfl
  | child block => cases hx; rfl
  | result c => cases hx; rfl

def spliced (σ : Text → Option Text) (number : Call → CallId) (p : Part) : Text :=
  ((p.key number).bind σ).getD (p.text number)

theorem splice_textAll (h : ∀ p ∈ ps, p.Clear) :
    Dialect.standard.splice σ (textAll number ps) = ps.flatMap (spliced σ number) := by
  induction ps with
  | nil => rfl
  | cons p ps ih =>
    have hrest := ih fun q hq => h q (List.mem_cons_of_mem p hq)
    have hp := h p List.mem_cons_self
    rw [textAll_cons, List.flatMap_cons, ← hrest]
    cases hk : p.key number with
    | none =>
      cases p with
      | char c => exact Page.splice_cons hp σ _
      | var name => cases hk
      | child block => cases hk
      | result c => cases hk
    | some x =>
      rw [text_of_key hk, Page.splice_token (isVariableName_of_key hp hk), spliced, hk,
        text_of_key hk]
      rfl

theorem splice_eq_textAll (h : ∀ p ∈ ps, p.Clear) {change : Part → List Part}
    (hc : ∀ p ∈ ps, spliced σ number p = textAll number' (change p)) :
    Dialect.standard.splice σ (textAll number ps) = textAll number' (ps.flatMap change) := by
  rw [splice_textAll h, textAll, List.flatMap_assoc]
  exact List.flatMap_congr hc

theorem textAll_congr (h : ∀ c, .result c ∈ ps → number' c = number c) :
    textAll number' ps = textAll number ps := by
  refine List.flatMap_congr ?_
  intro p hp
  cases p with
  | char c => rfl
  | var name => rfl
  | child block => rfl
  | result c => rw [text, text, h c hp]

end Part

end BlockTemplate
