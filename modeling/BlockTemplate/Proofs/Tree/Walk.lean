import BlockTemplate.Proofs.Tree.Slots

/-!
# Walking a tree

In a tree the outline of a block shows the block and all that lies below it, each block once. The
depth that an outline is cut off at is never reached, because the blocks above a block lie in
different slots.
-/

namespace BlockTemplate

namespace Outline

/-- The outline shows blocks as they are, each with all its children. -/
inductive Mirrors (look : Lookup) : Outline → Prop
  | node {id : BlockId} {b : Block} {cs : List Outline} :
    look id = some b → cs.map Outline.id = b.children → (∀ c ∈ cs, Mirrors look c) →
    Mirrors look (.node id b cs)

theorem mem_preorderAll {e : BlockId × Block} {os : List Outline} :
    e ∈ preorderAll os ↔ ∃ o ∈ os, e ∈ o.preorder := by
  induction os with
  | nil => simp [preorderAll]
  | cons o os ih => simp [preorderAll, ih]

theorem head_mem_preorder (o : Outline) : (o.id, o.block) ∈ o.preorder := by
  cases o with
  | node id b cs => simp [preorder, Outline.id, Outline.block]

namespace Mirrors

open Lookup (Reach IsTree)

variable {look : Lookup} {root : BlockId} {o : Outline}

theorem look_id (h : Mirrors look o) : look o.id = some o.block := by
  cases h with
  | node hb _ _ => exact hb

theorem ids_children (h : Mirrors look o) : o.children.map Outline.id = o.block.children := by
  cases h with
  | node _ hc _ => exact hc

theorem of_mem_children (h : Mirrors look o) {c : Outline} (hc : c ∈ o.children) :
    Mirrors look c := by
  cases h with
  | node _ _ hm => exact hm c hc

theorem sound (h : Mirrors look o) {x : BlockId} {d : Block} (hm : (x, d) ∈ o.preorder) :
    Reach look o.id x ∧ look x = some d := by
  induction h with
  | @node id b cs hb hc hcs ih =>
    rw [preorder, List.mem_cons] at hm
    rcases hm with he | hm
    · cases he
      exact ⟨.refl, hb⟩
    · obtain ⟨o, ho, hx⟩ := mem_preorderAll.mp hm
      obtain ⟨hr, hd⟩ := ih o ho hx
      refine ⟨Reach.trans (.child .refl hb ?_) hr, hd⟩
      rw [← hc]
      exact List.mem_map_of_mem ho

theorem closed (h : Mirrors look o) {p c : BlockId} {b : Block} (hm : (p, b) ∈ o.preorder)
    (hc : c ∈ b.children) : ∃ d, (c, d) ∈ o.preorder := by
  induction h with
  | @node id b' cs hb hch hcs ih =>
    rw [preorder, List.mem_cons] at hm
    rcases hm with he | hm
    · cases he
      rw [← hch, List.mem_map] at hc
      obtain ⟨o, ho, rfl⟩ := hc
      refine ⟨o.block, ?_⟩
      rw [preorder]
      exact List.mem_cons_of_mem _ (mem_preorderAll.mpr ⟨o, ho, head_mem_preorder o⟩)
    · obtain ⟨o, ho, hx⟩ := mem_preorderAll.mp hm
      obtain ⟨d, hd⟩ := ih o ho hx
      refine ⟨d, ?_⟩
      rw [preorder]
      exact List.mem_cons_of_mem _ (mem_preorderAll.mpr ⟨o, ho, hd⟩)

theorem mem_preorder_iff (h : Mirrors look o) {x : BlockId} {d : Block} :
    (x, d) ∈ o.preorder ↔ Reach look o.id x ∧ look x = some d := by
  refine ⟨h.sound, ?_⟩
  intro ⟨hr, hd⟩
  have hmem : ∃ e, (x, e) ∈ o.preorder := by
    induction hr generalizing d with
    | refl => exact ⟨o.block, head_mem_preorder o⟩
    | child _ hp hm ih =>
      obtain ⟨e, he⟩ := ih hp
      have hle := (h.sound he).2
      rw [hp, Option.some.injEq] at hle
      subst hle
      exact h.closed he hm
  obtain ⟨e, he⟩ := hmem
  have hle := (h.sound he).2
  rw [hd, Option.some.injEq] at hle
  exact hle ▸ he

theorem mem_ids_iff (h : Mirrors look o) {x : BlockId} (ht : IsTree look root) :
    x ∈ o.preorder.map (·.1) ↔ Reach look o.id x := by
  rw [List.mem_map]
  constructor
  · intro ⟨e, he, hx⟩
    obtain ⟨y, d⟩ := e
    cases hx
    exact (h.sound he).1
  · intro hr
    obtain ⟨d, hd⟩ := ht.reach_live h.look_id hr
    exact ⟨(x, d), h.mem_preorder_iff.mpr ⟨hr, hd⟩, rfl⟩

theorem nodup_preorderAll {ids : List BlockId} {os : List Outline} (ht : IsTree look root)
    {p : BlockId} {b : Block} (hp : look p = some b) (hids : os.map Outline.id = ids)
    (hn : ids.Nodup) (hsub : ∀ x ∈ ids, x ∈ b.children) (hm : ∀ o ∈ os, Mirrors look o)
    (ih : ∀ o ∈ os, (o.preorder.map (·.1)).Nodup) : ((preorderAll os).map (·.1)).Nodup := by
  induction os generalizing ids with
  | nil => exact List.nodup_nil
  | cons o os iho =>
    subst hids
    rw [List.map_cons] at hn hsub
    have hn' := List.nodup_cons.mp hn
    rw [preorderAll, List.map_append]
    refine List.nodup_append.mpr ⟨ih o List.mem_cons_self, ?_, ?_⟩
    · exact iho rfl hn'.2 (fun x hx => hsub x (List.mem_cons_of_mem _ hx))
        (fun o ho => hm o (List.mem_cons_of_mem _ ho)) (fun o ho => ih o (List.mem_cons_of_mem _ ho))
    · -- A block below two children would make them the same child.
      intro x hx y hy hxy
      subst hxy
      have hox := ((hm o List.mem_cons_self).mem_ids_iff ht).mp hx
      obtain ⟨e, he, hex⟩ := List.mem_map.mp hy
      obtain ⟨o', ho', he'⟩ := mem_preorderAll.mp he
      have hox' := ((hm o' (List.mem_cons_of_mem _ ho')).mem_ids_iff ht).mp
        (List.mem_map.mpr ⟨e, he', hex⟩)
      have heq := ht.eq_of_siblings_reach hp (hsub _ List.mem_cons_self)
        (hsub _ (List.mem_cons_of_mem _ (List.mem_map_of_mem ho'))) hox hox'
      exact hn'.1 (heq ▸ List.mem_map_of_mem ho')

theorem nodup_preorder (ht : IsTree look root) (h : Mirrors look o) :
    (o.preorder.map (·.1)).Nodup := by
  induction h with
  | @node id b cs hb hc hcs ih =>
    have hall := nodup_preorderAll ht hb hc (ht.children_nodup id b hb) (fun x hx => hx) hcs ih
    rw [preorder, List.map_cons]
    refine List.nodup_cons.mpr ⟨?_, hall⟩
    intro hm
    obtain ⟨e, he, hid⟩ := List.mem_map.mp hm
    obtain ⟨o, ho, hx⟩ := mem_preorderAll.mp he
    have hr : Reach look o.id id :=
      ((hcs o ho).mem_ids_iff ht).mp (List.mem_map.mpr ⟨e, hx, hid⟩)
    have hoc : o.id ∈ b.children := hc ▸ List.mem_map_of_mem ho
    exact ht.acyclic hb hoc hr

end Mirrors

end Outline

namespace Lookup

variable {look : Lookup} {root : BlockId}

inductive Depth (look : Lookup) (root : BlockId) : Nat → BlockId → Prop
  | root : Depth look root 0 root
  | child {k : Nat} {p c : BlockId} {b : Block} :
    Depth look root k p → look p = some b → c ∈ b.children → Depth look root (k + 1) c

theorem Reach.depth {c : BlockId} (h : Reach look root c) : ∃ k, Depth look root k c := by
  induction h with
  | refl => exact ⟨0, .root⟩
  | child _ hp hm ih =>
    obtain ⟨k, hk⟩ := ih
    exact ⟨k + 1, .child hk hp hm⟩

theorem Depth.unique (ht : IsTree look root) {j k : Nat} {c : BlockId} (hj : Depth look root j c)
    (hk : Depth look root k c) : j = k := by
  induction hj generalizing k with
  | root =>
    cases hk with
    | root => rfl
    | child _ hp hm => exact absurd hm (ht.root_not_child hp)
  | child hd hp hm ih =>
    cases hk with
    | root => exact absurd hm (ht.root_not_child hp)
    | child hd' hp' hm' =>
      have := ht.parent_unique hp hp' hm hm'
      subst this
      rw [ih hd']

theorem Depth.path (ht : IsTree look root) {k : Nat} {c : BlockId} (h : Depth look root k c) :
    ∃ l : List BlockId, l.length = k + 1 ∧ l.Nodup ∧
      ∀ x ∈ l, (∃ j ≤ k, Depth look root j x) ∧ ∃ d, look x = some d := by
  induction h with
  | root =>
    obtain ⟨t, ht, -⟩ := ht.top
    refine ⟨[root], rfl, List.nodup_singleton root, ?_⟩
    intro x hx
    rw [List.mem_singleton] at hx
    subst hx
    exact ⟨⟨0, Nat.le_refl _, .root⟩, t, ht⟩
  | @child k p c b hd hp hm ih =>
    obtain ⟨l, hl, hn, hx⟩ := ih
    obtain ⟨d, hc, -⟩ := ht.child_live hp hm
    have hdc : Depth look root (k + 1) c := .child hd hp hm
    refine ⟨c :: l, by rw [List.length_cons, hl], List.nodup_cons.mpr ⟨?_, hn⟩, ?_⟩
    · intro hcl
      obtain ⟨⟨j, hj, hjc⟩, -⟩ := hx c hcl
      have := hjc.unique ht hdc
      omega
    · intro x hxm
      rcases List.mem_cons.mp hxm with rfl | hxm
      · exact ⟨⟨k + 1, Nat.le_refl _, hdc⟩, d, hc⟩
      · obtain ⟨⟨j, hj, hjx⟩, hlive⟩ := hx x hxm
        exact ⟨⟨j, by omega, hjx⟩, hlive⟩

end Lookup

namespace Tree

open Lookup (Reach IsTree Depth)

variable {t : Tree}

theorem depth_lt (ht : IsTree t.get? rootId) {k : Nat} {c : BlockId}
    (h : Depth t.get? rootId k c) : k < t.slots.length := by
  obtain ⟨l, hl, hn, hx⟩ := h.path ht
  have hsub : l ⊆ List.range t.slots.length := by
    intro x hxm
    obtain ⟨-, d, hd⟩ := hx x hxm
    exact List.mem_range.mpr (lt_of_get? hd)
  have hle := hn.length_le_of_subset hsub
  rw [List.length_range] at hle
  omega

theorem outlineTo_of_depth (ht : IsTree t.get? rootId) (n : Nat) :
    ∀ {k : Nat} {id : BlockId} {b : Block}, Depth t.get? rootId k id → t.get? id = some b →
      t.slots.length ≤ n + k →
      ∃ o, t.outlineTo n id = some o ∧ o.id = id ∧ o.Mirrors t.get? := by
  induction n with
  | zero =>
    intro k id b hd hb hk
    have := depth_lt ht hd
    omega
  | succ n ih =>
    intro k id b hd hb hk
    have hchild : ∀ c ∈ b.children, ∃ o, t.outlineTo n c = some o ∧ o.id = c ∧
        o.Mirrors t.get? := by
      intro c hc
      obtain ⟨d, hcd, -⟩ := ht.child_live hb hc
      exact ih (.child hd hb hc) hcd (by omega)
    have hlist : ∀ l : List BlockId, (∀ c ∈ l, c ∈ b.children) →
        (l.filterMap (t.outlineTo n)).map Outline.id = l ∧
          ∀ o ∈ l.filterMap (t.outlineTo n), o.Mirrors t.get? := by
      intro l
      induction l with
      | nil => intro _; simp
      | cons c l ihl =>
        intro hl
        obtain ⟨o, ho, hid, hm⟩ := hchild c (hl c List.mem_cons_self)
        obtain ⟨h₁, h₂⟩ := ihl fun c hc => hl c (List.mem_cons_of_mem _ hc)
        rw [List.filterMap_cons_some ho]
        refine ⟨by rw [List.map_cons, h₁, hid], ?_⟩
        intro o' ho'
        rcases List.mem_cons.mp ho' with rfl | ho'
        · exact hm
        · exact h₂ o' ho'
    obtain ⟨h₁, h₂⟩ := hlist b.children fun c hc => hc
    exact ⟨.node id b (b.children.filterMap (t.outlineTo n)), by simp [outlineTo, hb], rfl,
      .node hb h₁ h₂⟩

theorem outline?_of_vacant {id : BlockId} (hb : t.get? id = none) : t.outline? id = none := by
  rw [outline?]
  cases t.slots.length with
  | zero => rfl
  | succ n => rw [outlineTo, hb]; rfl

theorem outline?_of_live (ht : IsTree t.get? rootId) {id : BlockId} {b : Block}
    (hb : t.get? id = some b) :
    ∃ o, t.outline? id = some o ∧ o.id = id ∧ o.Mirrors t.get? := by
  obtain ⟨k, hk⟩ := (ht.reached id b hb).depth
  exact outlineTo_of_depth ht _ hk hb (by omega)

theorem preorder_of_live (ht : IsTree t.get? rootId) {id : BlockId} {b : Block}
    (hb : t.get? id = some b) :
    ∃ o, t.outline? id = some o ∧ o.id = id ∧ o.Mirrors t.get? ∧ t.preorder id = o.preorder := by
  obtain ⟨o, ho, hid, hm⟩ := outline?_of_live ht hb
  exact ⟨o, ho, hid, hm, by simp [preorder, ho]⟩

theorem mem_preorder_iff (ht : IsTree t.get? rootId) {id : BlockId} {b : Block}
    (hb : t.get? id = some b) {x : BlockId} {d : Block} :
    (x, d) ∈ t.preorder id ↔ Reach t.get? id x ∧ t.get? x = some d := by
  obtain ⟨o, -, hid, hm, hpre⟩ := preorder_of_live ht hb
  rw [hpre, hm.mem_preorder_iff, hid]

theorem nodup_preorder (ht : IsTree t.get? rootId) {id : BlockId} {b : Block}
    (hb : t.get? id = some b) : ((t.preorder id).map (·.1)).Nodup := by
  obtain ⟨o, -, -, hm, hpre⟩ := preorder_of_live ht hb
  rw [hpre]
  exact hm.nodup_preorder ht

theorem nodup_descendants (ht : IsTree t.get? rootId) {id : BlockId} {b : Block}
    (hb : t.get? id = some b) : (t.descendants id).Nodup := by
  rw [descendants, List.map_tail]
  exact (nodup_preorder ht hb).sublist (List.tail_sublist _)

theorem mem_descendants_iff (ht : IsTree t.get? rootId) {id : BlockId} {b : Block}
    (hb : t.get? id = some b) {x : BlockId} :
    x ∈ t.descendants id ↔ Reach t.get? id x ∧ x ≠ id := by
  obtain ⟨o, -, hid, hm, hpre⟩ := preorder_of_live ht hb
  have hn := hm.nodup_preorder ht
  have hmem := hm.mem_ids_iff (x := x) ht
  rw [hid] at hmem
  cases o with
  | node i b cs =>
    cases hid
    rw [Outline.preorder, List.map_cons] at hn hmem
    rw [descendants, hpre, Outline.preorder, List.tail_cons, ← hmem, List.mem_cons]
    constructor
    · intro hx
      refine ⟨.inr hx, ?_⟩
      rintro rfl
      exact (List.nodup_cons.mp hn).1 hx
    · intro ⟨hx, hne⟩
      exact hx.resolve_left hne

theorem mem_namesUnder_iff (ht : IsTree t.get? rootId) {id : BlockId} {b : Block}
    (hb : t.get? id = some b) {name : Text} :
    name ∈ t.namesUnder id ↔ ∃ x d, Reach t.get? id x ∧ t.get? x = some d ∧ d.name = name := by
  rw [namesUnder, List.mem_map]
  constructor
  · intro ⟨⟨x, d⟩, he, hn⟩
    obtain ⟨hr, hd⟩ := (mem_preorder_iff ht hb).mp he
    exact ⟨x, d, hr, hd, hn⟩
  · intro ⟨x, d, hr, hd, hn⟩
    exact ⟨(x, d), (mem_preorder_iff ht hb).mpr ⟨hr, hd⟩, hn⟩

theorem of_mem_owners (ht : IsTree t.get? rootId) {name : Text} {id : BlockId}
    (h : id ∈ t.owners name) : ∃ b, t.get? id = some b ∧ name ∈ b.vars := by
  obtain ⟨r, hr, -⟩ := ht.top
  rw [owners, List.mem_map] at h
  obtain ⟨⟨x, d⟩, he, rfl⟩ := h
  rw [List.mem_filter] at he
  exact ⟨d, ((mem_preorder_iff ht hr).mp he.1).2, by simpa using he.2⟩

theorem live_of_owner (ht : IsTree t.get? rootId) {name : Text} {id : BlockId}
    (h : t.owner name = .ok id) : ∃ b, t.get? id = some b ∧ name ∈ b.vars := by
  apply of_mem_owners ht
  rw [owner] at h
  split at h
  · cases h
  · rename_i id' hid
    cases h
    rw [hid]
    exact List.mem_singleton_self _
  · cases h

end Tree

end BlockTemplate
