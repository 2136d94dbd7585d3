import BlockTemplate.Tree.Edit
import Mathlib.Data.List.Nodup

/-!
# The shape of a tree

Both the slots of a template and the blocks of a fragment are looked up by number, so the shape of a
tree is a property of a look-up: the root has no parent, a block is a child of exactly the block that
it names as its parent, and every block is reached from the root. Each edit of a tree is, slot by
slot, one of five edits of a look-up, and each of them keeps the shape.
-/

namespace BlockTemplate

abbrev Lookup := BlockId → Option Block

namespace Lookup

variable {look new : Lookup} {root : BlockId}

inductive Reach (look : Lookup) (a : BlockId) : BlockId → Prop
  | refl : Reach look a a
  | child {p c : BlockId} {b : Block} :
    Reach look a p → look p = some b → c ∈ b.children → Reach look a c

theorem Reach.trans {a b c : BlockId} (h₁ : Reach look a b) (h₂ : Reach look b c) :
    Reach look a c := by
  induction h₂ with
  | refl => exact h₁
  | child _ hp hc ih => exact .child ih hp hc

structure IsTree (look : Lookup) (root : BlockId) : Prop where
  top : ∃ b, look root = some b ∧ b.parent = none
  child_iff : ∀ p b c, look p = some b →
    (c ∈ b.children ↔ ∃ d, look c = some d ∧ d.parent = some p)
  parent_live : ∀ c d p, look c = some d → d.parent = some p → ∃ b, look p = some b
  children_nodup : ∀ p b, look p = some b → b.children.Nodup
  reached : ∀ c d, look c = some d → Reach look root c

def Distinct (look : Lookup) : Prop :=
  ∀ i j b c, look i = some b → look j = some c → b.name = c.name → i = j

namespace IsTree

variable (h : IsTree look root)
include h

theorem child_live {p c : BlockId} {b : Block} (hp : look p = some b) (hc : c ∈ b.children) :
    ∃ d, look c = some d ∧ d.parent = some p := (h.child_iff p b c hp).mp hc

theorem mem_children {p c : BlockId} {b d : Block} (hp : look p = some b) (hc : look c = some d)
    (hd : d.parent = some p) : c ∈ b.children := (h.child_iff p b c hp).mpr ⟨d, hc, hd⟩

theorem parent_unique {p q c : BlockId} {b d : Block} (hp : look p = some b)
    (hq : look q = some d) (hcp : c ∈ b.children) (hcq : c ∈ d.children) : p = q := by
  obtain ⟨x, hx, hxp⟩ := h.child_live hp hcp
  obtain ⟨y, hy, hyq⟩ := h.child_live hq hcq
  rw [hx, Option.some.injEq] at hy
  subst hy
  rw [hxp, Option.some.injEq] at hyq
  exact hyq

theorem reach_live {a c : BlockId} {b : Block} (ha : look a = some b) (hc : Reach look a c) :
    ∃ d, look c = some d := by
  cases hc with
  | refl => exact ⟨b, ha⟩
  | child _ hp hm =>
    obtain ⟨d, hd, -⟩ := h.child_live hp hm
    exact ⟨d, hd⟩

theorem root_not_child {p : BlockId} {b : Block} (hp : look p = some b) : root ∉ b.children := by
  intro hm
  obtain ⟨t, ht, htn⟩ := h.top
  obtain ⟨d, hd, hdp⟩ := h.child_live hp hm
  rw [ht, Option.some.injEq] at hd
  subst hd
  rw [htn] at hdp
  cases hdp

theorem eq_root_of_orphan {c : BlockId} {d : Block} (hc : look c = some d)
    (hd : d.parent = none) : c = root := by
  cases h.reached c d hc with
  | refl => rfl
  | child _ hp hm =>
    obtain ⟨e, he, hep⟩ := h.child_live hp hm
    rw [hc, Option.some.injEq] at he
    subst he
    rw [hd] at hep
    cases hep

theorem reach_linear {a b c : BlockId} (ha : Reach look a c) (hb : Reach look b c) :
    Reach look a b ∨ Reach look b a := by
  induction ha with
  | refl => exact .inr hb
  | child hp hlp hmp ih =>
    cases hb with
    | refl => exact .inl (.child hp hlp hmp)
    | child hq hlq hmq =>
      have hpq := h.parent_unique hlp hlq hmp hmq
      subst hpq
      exact ih hq

theorem acyclic {p c : BlockId} {b : Block} (hp : look p = some b) (hc : c ∈ b.children) :
    ¬ Reach look c p := by
  -- Going up from the lower block to the root, the circle would go up as well.
  have key : ∀ x, Reach look root x → ∀ q d y, look q = some d → y ∈ d.children →
      Reach look y q → Reach look y x → Reach look x q → False := by
    intro x hx
    induction hx with
    | refl =>
      intro q d y hq hy _ hyr _
      cases hyr with
      | refl => exact h.root_not_child hq hy
      | child _ hl hm => exact h.root_not_child hl hm
    | child hx hlx hmx ih =>
      intro q d y hq hy hyq hyx hxq
      cases hyx with
      | refl =>
        have := h.parent_unique hlx hq hmx hy
        subst this
        exact ih _ _ _ hq hy hyq hyq .refl
      | child hz hlz hmz =>
        have := h.parent_unique hlx hlz hmx hmz
        subst this
        exact ih _ _ _ hq hy hyq hz ((Reach.child .refl hlx hmx).trans hxq)
  intro hcp
  have hreach := h.reached p b hp
  exact key p hreach p b c hp hc hcp hcp .refl

theorem eq_of_siblings_reach {p a c x : BlockId} {b : Block} (hp : look p = some b)
    (ha : a ∈ b.children) (hc : c ∈ b.children) (hax : Reach look a x) (hcx : Reach look c x) :
    a = c := by
  rcases h.reach_linear hax hcx with hac | hca
  · cases hac with
    | refl => rfl
    | child hq hl hm =>
      have := h.parent_unique hl hp hm hc
      subst this
      exact absurd hq (h.acyclic hp ha)
  · cases hca with
    | refl => rfl
    | child hq hl hm =>
      have := h.parent_unique hl hp hm ha
      subst this
      exact absurd hq (h.acyclic hp hc)

end IsTree

end Lookup

end BlockTemplate
