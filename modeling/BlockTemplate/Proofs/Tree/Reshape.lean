import BlockTemplate.Proofs.Tree.Shape

/-!
# Edits that keep the shape

Each edit is described by what the new look-up finds under every number, so it does not matter how
the slots were written.
-/

namespace BlockTemplate.Lookup

variable {look new : Lookup} {root : BlockId}

def Relabel (look new : Lookup) : Prop :=
  ∀ x, (look x = none ∧ new x = none) ∨
    ∃ b d, look x = some b ∧ new x = some d ∧ d.children = b.children ∧ d.parent = b.parent

theorem Relabel.of_some (hr : Relabel look new) {x : BlockId} {b : Block} (hx : look x = some b) :
    ∃ d, new x = some d ∧ d.children = b.children ∧ d.parent = b.parent := by
  rcases hr x with ⟨hn, -⟩ | ⟨b', d, hb, hd, hs⟩
  · rw [hx] at hn; cases hn
  · rw [hx, Option.some.injEq] at hb
    subst hb
    exact ⟨d, hd, hs⟩

theorem Relabel.symm (hr : Relabel look new) : Relabel new look := by
  intro x
  rcases hr x with ⟨hn, hn'⟩ | ⟨b, d, hb, hd, h₁, h₂⟩
  · exact .inl ⟨hn', hn⟩
  · exact .inr ⟨d, b, hd, hb, h₁.symm, h₂.symm⟩

theorem Reach.relabel {a c : BlockId} (hr : Relabel look new) (h : Reach look a c) :
    Reach new a c := by
  induction h with
  | refl => exact .refl
  | child _ hp hc ih =>
    obtain ⟨d, hd, hch, -⟩ := hr.of_some hp
    exact .child ih hd (by rw [hch]; exact hc)

theorem IsTree.relabel (h : IsTree look root) (hr : Relabel look new) : IsTree new root where
  top := by
    obtain ⟨b, hb, hn⟩ := h.top
    obtain ⟨d, hd, -, hpar⟩ := hr.of_some hb
    exact ⟨d, hd, hpar.trans hn⟩
  child_iff := by
    intro p d c hp
    obtain ⟨b, hb, hch, -⟩ := hr.symm.of_some hp
    rw [← hch, h.child_iff p b c hb]
    constructor
    · intro ⟨x, hx, hxp⟩
      obtain ⟨y, hy, -, hpar⟩ := hr.of_some hx
      exact ⟨y, hy, hpar.trans hxp⟩
    · intro ⟨y, hy, hyp⟩
      obtain ⟨x, hx, -, hpar⟩ := hr.symm.of_some hy
      exact ⟨x, hx, hpar.trans hyp⟩
  parent_live := by
    intro c d p hc hd
    obtain ⟨b, hb, -, hpar⟩ := hr.symm.of_some hc
    obtain ⟨x, hx⟩ := h.parent_live c b p hb (hpar.trans hd)
    obtain ⟨y, hy, -⟩ := hr.of_some hx
    exact ⟨y, hy⟩
  children_nodup := by
    intro p d hp
    obtain ⟨b, hb, hch, -⟩ := hr.symm.of_some hp
    rw [← hch]
    exact h.children_nodup p b hb
  reached := by
    intro c d hc
    obtain ⟨b, hb, -⟩ := hr.symm.of_some hc
    exact (h.reached c b hb).relabel hr

structure Sprout (look new : Lookup) (p c : BlockId) (leaf : Block) : Prop where
  vacant : look c = none
  leaf_eq : new c = some leaf
  bare : leaf.children = []
  below : leaf.parent = some p
  above : ∃ b d, look p = some b ∧ new p = some d ∧ d.name = b.name ∧ d.parent = b.parent ∧
    d.children = b.children ++ [c]
  rest : ∀ x, x ≠ c → x ≠ p → new x = look x

namespace Sprout

variable {p c : BlockId} {leaf : Block} (s : Sprout look new p c leaf)
include s

theorem ne : c ≠ p := by
  rintro rfl
  obtain ⟨b, -, hb, -⟩ := s.above
  rw [s.vacant] at hb
  cases hb

theorem kept {x : BlockId} {b : Block} (hx : look x = some b) :
    ∃ d, new x = some d ∧ d.name = b.name ∧ d.parent = b.parent ∧
      d.children = b.children ++ if x = p then [c] else [] := by
  by_cases hxp : x = p
  · subst hxp
    obtain ⟨b', d, hb', hd, hn, hpar, hch⟩ := s.above
    rw [hx, Option.some.injEq] at hb'
    subst hb'
    exact ⟨d, hd, hn, hpar, by rw [hch, if_pos rfl]⟩
  · have hxc : x ≠ c := by rintro rfl; rw [s.vacant] at hx; cases hx
    exact ⟨b, by rw [s.rest x hxc hxp, hx], rfl, rfl, by simp [hxp]⟩

theorem cases {x : BlockId} {d : Block} (hx : new x = some d) :
    (x = c ∧ d = leaf) ∨ ∃ b, look x = some b ∧ d.name = b.name ∧ d.parent = b.parent ∧
      d.children = b.children ++ if x = p then [c] else [] := by
  by_cases hxc : x = c
  · subst hxc
    rw [s.leaf_eq, Option.some.injEq] at hx
    exact .inl ⟨rfl, hx.symm⟩
  · right
    have hlive : ∃ b, look x = some b := by
      by_cases hxp : x = p
      · subst hxp
        obtain ⟨b, -, hb, -⟩ := s.above
        exact ⟨b, hb⟩
      · exact ⟨d, by rw [← s.rest x hxc hxp, hx]⟩
    obtain ⟨b, hb⟩ := hlive
    obtain ⟨d', hd', h⟩ := s.kept hb
    rw [hx, Option.some.injEq] at hd'
    subst hd'
    exact ⟨b, hb, h⟩

theorem reach {a x : BlockId} (h : Reach look a x) : Reach new a x := by
  induction h with
  | refl => exact .refl
  | child _ hp hm ih =>
    obtain ⟨d, hd, -, -, hch⟩ := s.kept hp
    exact .child ih hd (by rw [hch]; exact List.mem_append_left _ hm)

theorem isTree (h : IsTree look root) : IsTree new root where
  top := by
    obtain ⟨b, hb, hn⟩ := h.top
    obtain ⟨d, hd, -, hpar, -⟩ := s.kept hb
    exact ⟨d, hd, hpar ▸ hn⟩
  child_iff := by
    intro q d x hq
    -- Either the new block, which has no children, or an old one, of which only `p` gains a child.
    rcases s.cases hq with ⟨rfl, rfl⟩ | ⟨b, hb, -, -, hch⟩
    · rw [s.bare]
      refine ⟨fun hm => absurd hm List.not_mem_nil, ?_⟩
      rintro ⟨e, he, hep⟩
      rcases s.cases he with ⟨rfl, rfl⟩ | ⟨b, hb, -, hpar, -⟩
      · rw [s.below, Option.some.injEq] at hep
        exact absurd hep.symm s.ne
      · obtain ⟨y, hy⟩ := h.parent_live x b q hb (hpar ▸ hep)
        rw [s.vacant] at hy
        cases hy
    · rw [hch, List.mem_append, h.child_iff q b x hb]
      constructor
      · rintro (⟨e, he, hep⟩ | hm)
        · obtain ⟨e', he', -, hpar, -⟩ := s.kept he
          exact ⟨e', he', hpar ▸ hep⟩
        · split at hm
          · rename_i hqp
            rw [List.mem_singleton] at hm
            subst hm hqp
            exact ⟨leaf, s.leaf_eq, s.below⟩
          · cases hm
      · rintro ⟨e, he, hep⟩
        rcases s.cases he with ⟨rfl, rfl⟩ | ⟨e', he', -, hpar, -⟩
        · rw [s.below, Option.some.injEq] at hep
          exact .inr (by simp [hep])
        · exact .inl ⟨e', he', hpar ▸ hep⟩
  parent_live := by
    intro x d q hx hd
    rcases s.cases hx with ⟨rfl, rfl⟩ | ⟨b, hb, -, hpar, -⟩
    · rw [s.below, Option.some.injEq] at hd
      subst hd
      obtain ⟨-, e, -, he, -⟩ := s.above
      exact ⟨e, he⟩
    · obtain ⟨y, hy⟩ := h.parent_live x b q hb (hpar ▸ hd)
      obtain ⟨z, hz, -⟩ := s.kept hy
      exact ⟨z, hz⟩
  children_nodup := by
    intro q d hq
    rcases s.cases hq with ⟨rfl, rfl⟩ | ⟨b, hb, -, -, hch⟩
    · rw [s.bare]; exact List.nodup_nil
    · rw [hch]
      have hc : c ∉ b.children := by
        intro hm
        obtain ⟨e, he, -⟩ := h.child_live hb hm
        rw [s.vacant] at he
        cases he
      split
      · exact List.nodup_append.mpr ⟨h.children_nodup q b hb, List.nodup_singleton c, by
          intro x hx y hy hxy
          rw [List.mem_singleton] at hy
          subst hy hxy
          exact hc hx⟩
      · rw [List.append_nil]; exact h.children_nodup q b hb
  reached := by
    intro x d hx
    rcases s.cases hx with ⟨rfl, rfl⟩ | ⟨b, hb, -⟩
    · obtain ⟨b, e, hb, he, -, -, hch⟩ := s.above
      exact .child (s.reach (h.reached p b hb)) he (by simp [hch])
    · exact s.reach (h.reached x b hb)

theorem distinct (h : Distinct look) (hn : ∀ x b, look x = some b → b.name ≠ leaf.name) :
    Distinct new := by
  intro i j b d hi hj hbd
  rcases s.cases hi with ⟨rfl, rfl⟩ | ⟨b', hb', hbn, -⟩ <;>
    rcases s.cases hj with ⟨rfl, rfl⟩ | ⟨d', hd', hdn, -⟩
  · rfl
  · exact absurd (hbd.trans hdn).symm (hn j d' hd')
  · exact absurd (hbn.symm.trans hbd) (hn i b' hb')
  · exact h i j b' d' hb' hd' (by rw [← hbn, hbd, hdn])

end Sprout

end BlockTemplate.Lookup
