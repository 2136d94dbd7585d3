import BlockTemplate.Proofs.Tree.Reshape

/-!
# Planting a fragment

A fragment takes the place of a block without children. Its top block gets the number and the parent
of that block, the others get numbers that were free.
-/

namespace BlockTemplate.Lookup

open BlockTemplate.Tree (relocate)

variable {look new : Lookup} {root : BlockId}

structure Plant (look new frag : Lookup) (place : Nat → BlockId) (id : BlockId) (leaf : Block) :
    Prop where
  leaf_eq : look id = some leaf
  bare : leaf.children = []
  place_zero : place 0 = id
  fresh : ∀ i b, frag i = some b → i ≠ 0 → look (place i) = none
  injective : ∀ i j b c, frag i = some b → frag j = some c → place i = place j → i = j
  placed : ∀ i b, frag i = some b → new (place i) = some (relocate place leaf.parent b)
  rest : ∀ x, (∀ i b, frag i = some b → place i ≠ x) → new x = look x

namespace Plant

variable {frag : Lookup} {place : Nat → BlockId} {id : BlockId} {leaf : Block}
variable (s : Plant look new frag place id leaf)
include s

theorem cases {x : BlockId} {d : Block} (hx : new x = some d) :
    (∃ i b, frag i = some b ∧ x = place i ∧ d = relocate place leaf.parent b) ∨
      (look x = some d ∧ ∀ i b, frag i = some b → place i ≠ x) := by
  by_cases hp : ∃ i b, frag i = some b ∧ place i = x
  · obtain ⟨i, b, hb, rfl⟩ := hp
    rw [s.placed i b hb, Option.some.injEq] at hx
    exact .inl ⟨i, b, hb, rfl, hx.symm⟩
  · have hp' : ∀ i b, frag i = some b → place i ≠ x := fun i b hb he => hp ⟨i, b, hb, he⟩
    exact .inr ⟨by rw [← s.rest x hp', hx], hp'⟩

theorem kept {x : BlockId} {d : Block} (hx : look x = some d) (hid : x ≠ id) : new x = some d := by
  rw [s.rest x, hx]
  intro i b hb he
  by_cases hi : i = 0
  · subst hi
    exact hid (he ▸ s.place_zero)
  · have := s.fresh i b hb hi
    rw [he, hx] at this
    cases this

theorem eq_zero_of_live {i : Nat} {b d : Block} (hb : frag i = some b)
    (hx : look (place i) = some d) : i = 0 := by
  by_contra hi
  rw [s.fresh i b hb hi] at hx
  cases hx

theorem no_child_of_leaf (h : IsTree look root) {x : BlockId} {d : Block} (hx : look x = some d) :
    d.parent ≠ some id := by
  intro hd
  have hm := h.mem_children s.leaf_eq hx hd
  rw [s.bare] at hm
  cases hm

theorem old_parent (h : IsTree look root) {x : BlockId} {d : Block} (hx : look x = some d) {i : Nat}
    {b : Block} (hb : frag i = some b) : d.parent ≠ some (place i) := by
  intro hd
  obtain ⟨e, he⟩ := h.parent_live x d _ hx hd
  have hi := s.eq_zero_of_live hb he
  subst hi
  rw [s.place_zero] at hd
  exact s.no_child_of_leaf h hx hd

theorem top_eq (hf : IsTree frag 0) :
    ∃ d, new id = some d ∧ d.parent = leaf.parent := by
  obtain ⟨b, hb, hn⟩ := hf.top
  refine ⟨relocate place leaf.parent b, ?_, by simp [relocate, hn]⟩
  rw [← s.place_zero]
  exact s.placed 0 b hb

theorem reach_old {a x : BlockId} (h : Reach look a x) : Reach new a x := by
  induction h with
  | refl => exact .refl
  | @child p c b _ hp hm ih =>
    have hid : p ≠ id := by
      rintro rfl
      rw [s.leaf_eq, Option.some.injEq] at hp
      rw [← hp, s.bare] at hm
      cases hm
    exact .child ih (s.kept hp hid) hm

theorem reach_new {i : Nat} (h : Reach frag 0 i) : Reach new id (place i) := by
  induction h with
  | refl => rw [s.place_zero]; exact .refl
  | child _ hp hm ih => exact .child ih (s.placed _ _ hp) (List.mem_map_of_mem hm)

theorem exists_of_reach (hf : IsTree frag 0) {x : BlockId} (h : Reach new id x) :
    ∃ i b, frag i = some b ∧ place i = x := by
  induction h with
  | refl =>
    obtain ⟨b, hb, -⟩ := hf.top
    exact ⟨0, b, hb, s.place_zero⟩
  | child _ hp hm ih =>
    obtain ⟨i, b, hb, rfl⟩ := ih
    rw [s.placed i b hb, Option.some.injEq] at hp
    rw [← hp] at hm
    obtain ⟨j, hj, rfl⟩ := List.mem_map.mp hm
    obtain ⟨d, hd, -⟩ := hf.child_live hb hj
    exact ⟨j, d, hd, rfl⟩

theorem child_iff_new (h : IsTree look root) (hf : IsTree frag 0) {i : Nat} {b : Block}
    (hb : frag i = some b) (c : BlockId) :
    c ∈ (relocate place leaf.parent b).children ↔
      ∃ d, new c = some d ∧ d.parent = some (place i) := by
  simp only [relocate, List.mem_map]
  constructor
  · rintro ⟨j, hj, rfl⟩
    obtain ⟨d, hd, hdp⟩ := hf.child_live hb hj
    exact ⟨_, s.placed j d hd, by simp [relocate, hdp]⟩
  · rintro ⟨d, hd, hdp⟩
    rcases s.cases hd with ⟨j, e, he, rfl, rfl⟩ | ⟨hx, -⟩
    · cases hep : e.parent with
      | none =>
        simp only [relocate, hep] at hdp
        exact absurd hdp (s.old_parent h s.leaf_eq hb)
      | some q =>
        simp only [relocate, hep, Option.some.injEq] at hdp
        obtain ⟨y, hy⟩ := hf.parent_live j e q he hep
        have := s.injective q i y b hy hb hdp
        subst this
        exact ⟨j, hf.mem_children hb he hep, rfl⟩
    · exact absurd hdp (s.old_parent h hx hb)

theorem child_iff_old (h : IsTree look root) (hf : IsTree frag 0) {p : BlockId} {b : Block}
    (hp : look p = some b) (hnp : ∀ i b, frag i = some b → place i ≠ p) (c : BlockId) :
    c ∈ b.children ↔ ∃ d, new c = some d ∧ d.parent = some p := by
  rw [h.child_iff p b c hp]
  constructor
  · rintro ⟨d, hd, hdp⟩
    by_cases hc : c = id
    · subst hc
      rw [s.leaf_eq, Option.some.injEq] at hd
      subst hd
      obtain ⟨e, he, hpar⟩ := s.top_eq hf
      exact ⟨e, he, by rw [hpar, hdp]⟩
    · exact ⟨d, s.kept hd hc, hdp⟩
  · rintro ⟨d, hd, hdp⟩
    rcases s.cases hd with ⟨j, e, he, rfl, rfl⟩ | ⟨hx, -⟩
    · cases hep : e.parent with
      | none =>
        have hj : j = 0 := hf.eq_root_of_orphan he hep
        subst hj
        simp only [relocate, hep] at hdp
        exact ⟨leaf, by rw [s.place_zero, s.leaf_eq], hdp⟩
      | some q =>
        simp only [relocate, hep, Option.some.injEq] at hdp
        obtain ⟨y, hy⟩ := hf.parent_live j e q he hep
        exact absurd hdp (hnp q y hy)
    · exact ⟨d, hx, hdp⟩

theorem isTree (h : IsTree look root) (hf : IsTree frag 0) : IsTree new root where
  top := by
    obtain ⟨b, hb, hn⟩ := h.top
    by_cases hr : root = id
    · subst hr
      rw [s.leaf_eq, Option.some.injEq] at hb
      subst hb
      obtain ⟨d, hd, hpar⟩ := s.top_eq hf
      exact ⟨d, hd, by rw [hpar, hn]⟩
    · exact ⟨b, s.kept hb hr, hn⟩
  child_iff := by
    intro p d c hp
    rcases s.cases hp with ⟨i, b, hb, rfl, rfl⟩ | ⟨hx, hnp⟩
    · exact s.child_iff_new h hf hb c
    · exact s.child_iff_old h hf hx hnp c
  parent_live := by
    intro c d p hc hd
    -- Every old block is there still, the one at `id` as the top block of the fragment.
    have hup : ∀ q, (∃ y, look q = some y) → ∃ z, new q = some z := by
      intro q ⟨y, hy⟩
      by_cases hq : q = id
      · subst hq
        obtain ⟨z, hz, -⟩ := s.top_eq hf
        exact ⟨z, hz⟩
      · exact ⟨y, s.kept hy hq⟩
    rcases s.cases hc with ⟨i, b, hb, rfl, rfl⟩ | ⟨hx, -⟩
    · cases hbp : b.parent with
      | none =>
        simp only [relocate, hbp] at hd
        exact hup p (h.parent_live id leaf p s.leaf_eq hd)
      | some q =>
        simp only [relocate, hbp, Option.some.injEq] at hd
        obtain ⟨y, hy⟩ := hf.parent_live i b q hb hbp
        exact ⟨_, by rw [← hd]; exact s.placed q y hy⟩
    · exact hup p (h.parent_live c d p hx hd)
  children_nodup := by
    intro p d hp
    rcases s.cases hp with ⟨i, b, hb, rfl, rfl⟩ | ⟨hx, -⟩
    · refine List.Nodup.map_on ?_ (hf.children_nodup i b hb)
      intro j hj k hk hjk
      obtain ⟨y, hy, -⟩ := hf.child_live hb hj
      obtain ⟨z, hz, -⟩ := hf.child_live hb hk
      exact s.injective j k y z hy hz hjk
    · exact h.children_nodup p d hx
  reached := by
    intro c d hc
    have hid := s.reach_old (h.reached id leaf s.leaf_eq)
    rcases s.cases hc with ⟨i, b, hb, rfl, rfl⟩ | ⟨hx, -⟩
    · exact hid.trans (s.reach_new (hf.reached i b hb))
    · exact s.reach_old (h.reached c d hx)

theorem not_id (ht : IsTree frag 0) {x : BlockId} (hx : ∀ i b, frag i = some b → place i ≠ x) :
    x ≠ id := by
  obtain ⟨b, hb, -⟩ := ht.top
  intro he
  exact hx 0 b hb (s.place_zero.trans he.symm)

theorem distinct (h : Distinct look) (ht : IsTree frag 0) (hf : Distinct frag)
    (hn : ∀ x b i c, look x = some b → x ≠ id → frag i = some c → b.name ≠ c.name) :
    Distinct new := by
  intro i j b d hi hj hbd
  rcases s.cases hi with ⟨k, e, he, rfl, rfl⟩ | ⟨hx, hnx⟩ <;>
    rcases s.cases hj with ⟨l, g, hg, rfl, rfl⟩ | ⟨hy, hny⟩
  · rw [hf k l e g he hg hbd]
  · exact absurd hbd.symm (hn j d k e hy (s.not_id ht hny) he)
  · exact absurd hbd (hn i b l g hx (s.not_id ht hnx) hg)
  · exact h i j b d hx hy hbd

end Plant

end BlockTemplate.Lookup
