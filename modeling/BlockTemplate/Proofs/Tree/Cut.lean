import BlockTemplate.Proofs.Tree.Reshape

/-!
# Taking blocks out

Pruning takes away all that lies below a block; dissolving takes away one block and gives its
children to its parent.
-/

namespace BlockTemplate.Lookup

variable {look new : Lookup} {root : BlockId}

structure Pruned (look new : Lookup) (id : BlockId) : Prop where
  stump : ∃ b d, look id = some b ∧ new id = some d ∧ d.name = b.name ∧ d.parent = b.parent ∧
    d.children = []
  gone : ∀ x, Reach look id x → x ≠ id → new x = none
  rest : ∀ x, ¬ Reach look id x → new x = look x

namespace Pruned

variable {id : BlockId} (s : Pruned look new id)
include s

theorem cases {x : BlockId} {d : Block} (hx : new x = some d) :
    (x = id ∨ ¬ Reach look id x) ∧ ∃ b, look x = some b ∧ d.name = b.name ∧
      d.parent = b.parent ∧ d.children = if x = id then [] else b.children := by
  by_cases hxid : x = id
  · subst hxid
    obtain ⟨b, d', hb, hd', hn, hp, hc⟩ := s.stump
    rw [hx, Option.some.injEq] at hd'
    subst hd'
    exact ⟨.inl rfl, b, hb, hn, hp, by rw [if_pos rfl, hc]⟩
  · have hr : ¬ Reach look id x := by
      intro hr
      rw [s.gone x hr hxid] at hx
      cases hx
    exact ⟨.inr hr, d, by rw [← s.rest x hr, hx], rfl, rfl, by rw [if_neg hxid]⟩

theorem kept {x : BlockId} {b : Block} (hx : look x = some b)
    (hr : x = id ∨ ¬ Reach look id x) : ∃ d, new x = some d ∧ d.name = b.name ∧
      d.parent = b.parent ∧ d.children = if x = id then [] else b.children := by
  by_cases hxid : x = id
  · subst hxid
    obtain ⟨b', d, hb', hd, hn, hp, hc⟩ := s.stump
    rw [hx, Option.some.injEq] at hb'
    subst hb'
    exact ⟨d, hd, hn, hp, by rw [if_pos rfl, hc]⟩
  · have hr' := hr.resolve_left hxid
    exact ⟨b, by rw [s.rest x hr', hx], rfl, rfl, by rw [if_neg hxid]⟩

theorem parent_stays (h : IsTree look root) {x p : BlockId} {b : Block} (hx : look x = some b)
    (hp : b.parent = some p) (hr : x = id ∨ ¬ Reach look id x) : ¬ Reach look id p := by
  obtain ⟨e, he⟩ := h.parent_live x b p hx hp
  have hm := h.mem_children he hx hp
  rcases hr with rfl | hr
  · exact h.acyclic he hm
  · intro hrp
    exact hr (.child hrp he hm)

theorem reach (h : IsTree look root) {x : BlockId} (hx : Reach look root x)
    (hr : x = id ∨ ¬ Reach look id x) : Reach new root x := by
  induction hx with
  | refl => exact .refl
  | @child p c b hp hlp hm ih =>
    obtain ⟨d, hd, hdp⟩ := h.child_live hlp hm
    have hrp := s.parent_stays h hd hdp hr
    have hpid : p ≠ id := by rintro rfl; exact hrp .refl
    obtain ⟨e, he, -, -, hch⟩ := s.kept hlp (.inr hrp)
    exact .child (ih (.inr hrp)) he (by rw [hch, if_neg hpid]; exact hm)

theorem isTree (h : IsTree look root) : IsTree new root where
  top := by
    obtain ⟨b, hb, hn⟩ := h.top
    have hr : root = id ∨ ¬ Reach look id root := by
      by_cases hr : Reach look id root
      · cases hr with
        | refl => exact .inl rfl
        | child _ hp hm => exact absurd hm (h.root_not_child hp)
      · exact .inr hr
    obtain ⟨d, hd, -, hp, -⟩ := s.kept hb hr
    exact ⟨d, hd, hp ▸ hn⟩
  child_iff := by
    intro p d c hp
    obtain ⟨hr, b, hb, -, -, hch⟩ := s.cases hp
    rw [hch]
    constructor
    · intro hm
      split at hm
      · cases hm
      · rename_i hpid
        obtain ⟨e, he, hep⟩ := h.child_live hb hm
        -- A child that went away would have its parent below the pruned block.
        have hrc : c = id ∨ ¬ Reach look id c := by
          by_cases hc : Reach look id c
          · cases hc with
            | refl => exact .inl rfl
            | child hq hlq hmq =>
              have := h.parent_unique hlq hb hmq hm
              subst this
              exact absurd hq (hr.resolve_left hpid)
          · exact .inr hc
        obtain ⟨g, hg, -, hgp, -⟩ := s.kept he hrc
        exact ⟨g, hg, hgp ▸ hep⟩
    · intro ⟨e, he, hep⟩
      obtain ⟨hrc, g, hg, -, hgp, -⟩ := s.cases he
      have hrp := s.parent_stays h hg (hgp ▸ hep) hrc
      have hpid : p ≠ id := by rintro rfl; exact hrp .refl
      rw [if_neg hpid]
      exact h.mem_children hb hg (hgp ▸ hep)
  parent_live := by
    intro c d p hc hd
    obtain ⟨hr, b, hb, -, hp, -⟩ := s.cases hc
    obtain ⟨e, he⟩ := h.parent_live c b p hb (hp ▸ hd)
    obtain ⟨g, hg, -⟩ := s.kept he (.inr (s.parent_stays h hb (hp ▸ hd) hr))
    exact ⟨g, hg⟩
  children_nodup := by
    intro p d hp
    obtain ⟨-, b, hb, -, -, hch⟩ := s.cases hp
    rw [hch]
    split
    · exact List.nodup_nil
    · exact h.children_nodup p b hb
  reached := by
    intro c d hc
    obtain ⟨hr, b, hb, -⟩ := s.cases hc
    exact s.reach h (h.reached c b hb) hr

theorem distinct (h : Distinct look) : Distinct new := by
  intro i j b d hi hj hbd
  obtain ⟨-, b', hb', hbn, -⟩ := s.cases hi
  obtain ⟨-, d', hd', hdn, -⟩ := s.cases hj
  exact h i j b' d' hb' hd' (by rw [← hbn, ← hdn, hbd])

end Pruned

def inlineChildren (id : BlockId) (b : Block) (children : List BlockId) : List BlockId :=
  children.flatMap fun c => if c = id then b.children else [c]

theorem mem_inlineChildren {id c : BlockId} {b : Block} {children : List BlockId} :
    c ∈ inlineChildren id b children ↔
      (id ∈ children ∧ c ∈ b.children) ∨ (c ∈ children ∧ c ≠ id) := by
  simp only [inlineChildren, List.mem_flatMap]
  constructor
  · intro ⟨x, hx, hc⟩
    split at hc
    · rename_i he
      exact .inl ⟨he ▸ hx, hc⟩
    · rename_i hne
      rw [List.mem_singleton] at hc
      subst hc
      exact .inr ⟨hx, hne⟩
  · intro hc
    rcases hc with ⟨hid, hc⟩ | ⟨hc, hne⟩
    · exact ⟨id, hid, by rw [if_pos rfl]; exact hc⟩
    · exact ⟨c, hc, by rw [if_neg hne]; exact List.mem_singleton_self c⟩

theorem nodup_inlineChildren {id : BlockId} {b : Block} {children : List BlockId}
    (hn : children.Nodup) (hb : b.children.Nodup) (hd : ∀ c ∈ b.children, c ∉ children) :
    (inlineChildren id b children).Nodup := by
  induction children with
  | nil => exact List.nodup_nil
  | cons x rest ih =>
    have hx := List.nodup_cons.mp hn
    have ih := ih hx.2 fun c hc hm => hd c hc (List.mem_cons_of_mem _ hm)
    have hstep : inlineChildren id b (x :: rest) =
        (if x = id then b.children else [x]) ++ inlineChildren id b rest := rfl
    rw [hstep]
    split
    · rename_i he
      subst he
      refine List.nodup_append.mpr ⟨hb, ih, ?_⟩
      intro y hy z hz hyz
      subst hyz
      rcases mem_inlineChildren.mp hz with ⟨hm, -⟩ | ⟨hm, -⟩
      · exact hx.1 hm
      · exact hd y hy (List.mem_cons_of_mem _ hm)
    · refine List.nodup_append.mpr ⟨List.nodup_singleton x, ih, ?_⟩
      intro y hy z hz hyz
      rw [List.mem_singleton] at hy
      subst hy hyz
      rcases mem_inlineChildren.mp hz with ⟨-, hm⟩ | ⟨hm, -⟩
      · exact hd y hm List.mem_cons_self
      · exact hx.1 hm

structure Dissolved (look new : Lookup) (id p : BlockId) (b : Block) : Prop where
  block : look id = some b
  up : b.parent = some p
  gone : new id = none
  vacant : ∀ x, look x = none → new x = none
  kept : ∀ x e, look x = some e → x ≠ id → ∃ d, new x = some d ∧ d.name = e.name ∧
    d.parent = (if e.parent = some id then some p else e.parent) ∧
    d.children = if x = p then inlineChildren id b e.children else e.children

namespace Dissolved

variable {id p : BlockId} {b : Block} (s : Dissolved look new id p b)
include s

theorem cases {x : BlockId} {d : Block} (hx : new x = some d) : x ≠ id ∧ ∃ e, look x = some e ∧
    d.name = e.name ∧ d.parent = (if e.parent = some id then some p else e.parent) ∧
    d.children = if x = p then inlineChildren id b e.children else e.children := by
  have hid : x ≠ id := by
    intro he
    rw [he, s.gone] at hx
    cases hx
  cases he : look x with
  | none => rw [s.vacant x he] at hx; cases hx
  | some e =>
    obtain ⟨d', hd', h⟩ := s.kept x e he hid
    rw [hx, Option.some.injEq] at hd'
    subst hd'
    exact ⟨hid, e, rfl, h⟩

theorem ne (h : IsTree look root) : p ≠ id := by
  intro he
  obtain ⟨e, hp⟩ := h.parent_live id b p s.block s.up
  have hm := h.mem_children hp s.block s.up
  rw [he] at hp
  exact h.acyclic hp hm .refl

theorem mem_above (h : IsTree look root) {e : Block} (he : look p = some e) : id ∈ e.children :=
  h.mem_children he s.block s.up

theorem mem_children (h : IsTree look root) {x q : BlockId} {e d : Block} (hx : look x = some e)
    (hid : x ≠ id) (hq : look q = some d) (hqid : q ≠ id)
    (hp : (if e.parent = some id then some p else e.parent) = some q) :
    x ∈ if q = p then inlineChildren id b d.children else d.children := by
  split at hp
  · rename_i hpar
    rw [Option.some.injEq] at hp
    subst hp
    rw [if_pos rfl, mem_inlineChildren]
    exact .inl ⟨s.mem_above h hq, h.mem_children s.block hx hpar⟩
  · have hm := h.mem_children hq hx hp
    split
    · exact mem_inlineChildren.mpr (.inr ⟨hm, hid⟩)
    · exact hm

theorem reach (h : IsTree look root) {x : BlockId} (hx : Reach look root x) :
    (x = id → Reach new root p) ∧ (x ≠ id → Reach new root x) := by
  have hpid := s.ne h
  induction hx with
  | refl =>
    refine ⟨?_, fun _ => .refl⟩
    intro he
    obtain ⟨t, ht, htn⟩ := h.top
    rw [he, s.block, Option.some.injEq] at ht
    subst ht
    rw [s.up] at htn
    cases htn
  | @child q c e hq hlq hm ih =>
    obtain ⟨d, hd, hdp⟩ := h.child_live hlq hm
    constructor
    · rintro rfl
      rw [s.block, Option.some.injEq] at hd
      subst hd
      rw [s.up, Option.some.injEq] at hdp
      subst hdp
      exact ih.2 hpid
    · intro hc
      by_cases hqid : q = id
      · -- A child of the block that goes is now a child of its parent.
        subst hqid
        obtain ⟨t, ht⟩ := h.parent_live q b p s.block s.up
        obtain ⟨t', ht', -, -, hch⟩ := s.kept p t ht hpid
        refine .child (ih.1 rfl) ht' ?_
        rw [hch]
        exact s.mem_children h hd hc ht hpid (by rw [if_pos hdp])
      · obtain ⟨e', he', -, -, hch⟩ := s.kept q e hlq hqid
        refine .child (ih.2 hqid) he' ?_
        rw [hch]
        refine s.mem_children h hd hc hlq hqid ?_
        rw [if_neg, hdp]
        rw [hdp, Option.some.injEq]
        exact hqid

theorem isTree (h : IsTree look root) : IsTree new root where
  top := by
    obtain ⟨t, ht, htn⟩ := h.top
    have hr : root ≠ id := by
      rintro rfl
      rw [s.block, Option.some.injEq] at ht
      subst ht
      rw [s.up] at htn
      cases htn
    obtain ⟨d, hd, -, hp, -⟩ := s.kept root t ht hr
    exact ⟨d, hd, by rw [hp, htn, if_neg (by simp)]⟩
  child_iff := by
    intro q d c hq
    obtain ⟨hqid, e, he, -, -, hch⟩ := s.cases hq
    rw [hch]
    constructor
    · intro hm
      -- The child was one of `q` already, or one of the block that went, and `q` is its parent.
      have hold : (c ∈ e.children ∧ c ≠ id) ∨ (q = p ∧ c ∈ b.children) := by
        split at hm
        · rename_i hqp
          rcases mem_inlineChildren.mp hm with ⟨-, hc⟩ | hc
          · exact .inr ⟨hqp, hc⟩
          · exact .inl hc
        · rename_i hqp
          refine .inl ⟨hm, ?_⟩
          rintro rfl
          obtain ⟨g, hg, hgp⟩ := h.child_live he hm
          rw [s.block, Option.some.injEq] at hg
          subst hg
          rw [s.up, Option.some.injEq] at hgp
          exact hqp hgp.symm
      rcases hold with ⟨hc, hcid⟩ | ⟨rfl, hc⟩
      · obtain ⟨g, hg, hgp⟩ := h.child_live he hc
        obtain ⟨g', hg', -, hp', -⟩ := s.kept c g hg hcid
        refine ⟨g', hg', ?_⟩
        rw [hp', hgp, if_neg]
        rw [Option.some.injEq]
        exact hqid
      · obtain ⟨g, hg, hgp⟩ := h.child_live s.block hc
        have hcid : c ≠ id := by
          rintro rfl
          exact h.acyclic s.block hc .refl
        obtain ⟨g', hg', -, hp', -⟩ := s.kept c g hg hcid
        exact ⟨g', hg', by rw [hp', if_pos hgp]⟩
    · intro ⟨g, hg, hgp⟩
      obtain ⟨hcid, g', hg', -, hp', -⟩ := s.cases hg
      exact s.mem_children h hg' hcid he hqid (hp' ▸ hgp)
  parent_live := by
    intro c d q hc hd
    obtain ⟨hcid, e, he, -, hp, -⟩ := s.cases hc
    rw [hp] at hd
    have hold : q ≠ id ∧ ∃ g, look q = some g := by
      split at hd
      · rw [Option.some.injEq] at hd
        subst hd
        exact ⟨s.ne h, h.parent_live id b _ s.block s.up⟩
      · rename_i hne
        refine ⟨?_, h.parent_live c e q he hd⟩
        rintro rfl
        exact hne hd
    obtain ⟨hqid, g, hg⟩ := hold
    obtain ⟨g', hg', -⟩ := s.kept q g hg hqid
    exact ⟨g', hg'⟩
  children_nodup := by
    intro q d hq
    obtain ⟨hqid, e, he, -, -, hch⟩ := s.cases hq
    rw [hch]
    split
    · refine nodup_inlineChildren (h.children_nodup q e he) (h.children_nodup id b s.block) ?_
      intro c hc hm
      exact hqid (h.parent_unique he s.block hm hc)
    · exact h.children_nodup q e he
  reached := by
    intro c d hc
    obtain ⟨hcid, e, he, -⟩ := s.cases hc
    exact (s.reach h (h.reached c e he)).2 hcid

theorem distinct (h : Distinct look) : Distinct new := by
  intro i j e d hi hj hed
  obtain ⟨-, e', he', hen, -⟩ := s.cases hi
  obtain ⟨-, d', hd', hdn, -⟩ := s.cases hj
  exact h i j e' d' he' hd' (by rw [← hen, ← hdn, hed])

end Dissolved

end BlockTemplate.Lookup
