import BlockTemplate.Proofs.Render.Effect
import BlockTemplate.Proofs.Template.Session

/-!
# The effect of a render on a template

In a tree the blocks walked by a render are the rendered block and all below it, each once. What a
render changes in a template is told by them and by the state before.
-/

namespace BlockTemplate

open Lookup (Reach)

def Tree.Below (t : Tree) (id x : BlockId) : Prop := Reach t.get? id x ∧ x ≠ id

theorem Lookup.IsTree.eq_of_reach_root {look : Lookup} {root a : BlockId}
    (h : Lookup.IsTree look root) (ha : Reach look a root) : a = root := by
  generalize hx : root = x at ha
  cases ha with
  | refl => rfl
  | child _ hp hc => exact absurd (hx ▸ hc) (h.root_not_child hp)

theorem Outline.Mirrors.exposed_iff_below {t : Tree} {root : BlockId} {o : Outline}
    (h : o.Mirrors t.get?) (ht : Lookup.IsTree t.get? root) {hidden : BlockId → Bool} {x : BlockId} :
    x ∈ o.exposed hidden ↔ x = o.id ∨ t.Below o.id x ∧
      ¬ ∃ y, t.Below o.id y ∧ hidden y = true ∧ Reach t.get? y x := by
  have hnest : (∃ y, Reach t.get? o.id y ∧ y ≠ o.id ∧ hidden y = true ∧ Reach t.get? y x) ↔
      ∃ y, t.Below o.id y ∧ hidden y = true ∧ Reach t.get? y x := by
    simp only [Tree.Below, and_assoc]
  rw [h.mem_exposed_iff ht, hnest]
  constructor
  · rintro ⟨hreach, hnone⟩
    by_cases hx : x = o.id
    · exact .inl hx
    · exact .inr ⟨⟨hreach, hx⟩, hnone⟩
  · rintro (rfl | ⟨hx, hnone⟩)
    · refine ⟨.refl, ?_⟩
      rintro ⟨y, ⟨hy, hne⟩, _, hyx⟩
      exact ((h.mem_exposed_iff ht).mp o.id_mem_exposed).2 ⟨y, hy, hne, ‹_›, hyx⟩
    · exact ⟨hx.1, hnone⟩

theorem Outline.Mirrors.mem_listed_iff {t : Tree} {o : Outline} (h : o.Mirrors t.get?) {x : Text} :
    x ∈ Reference.listed o.preorder ↔
      ∃ y b, Reach t.get? o.id y ∧ t.get? y = some b ∧ x ∈ b.vars := by
  rw [Reference.listed, List.mem_flatMap]
  constructor
  · rintro ⟨⟨y, d⟩, hy, hx⟩
    obtain ⟨hreach, hd⟩ := h.mem_preorder_iff.mp hy
    exact ⟨y, d, hreach, hd, hx⟩
  · rintro ⟨y, d, hreach, hd, hx⟩
    exact ⟨(y, d), h.mem_preorder_iff.mpr ⟨hreach, hd⟩, hx⟩

namespace Template

variable {t u : Template} {id : BlockId}

def withOutput (t : Template) (id : BlockId) (text : Text) : Template :=
  { t with state := t.state.withOutput id text }

/-- What the render of a block changes, its own output aside, and all that it leaves. -/
structure RenderEffect (t : Template) (id : BlockId) (u : Template) : Prop where
  tree : u.tree = t.tree
  current : u.current = t.current
  nextInclusion : u.nextInclusion = t.nextInclusion
  /-- the variables that the block or a descendant lists are used up, all others stay -/
  locals : ∀ x v, u.state.locals.get? x = some v ↔ t.state.locals.get? x = some v ∧
    ¬ ∃ y b, Reach t.tree.get? id y ∧ t.tree.get? y = some b ∧ x ∈ b.vars
  globals : u.state.globals = t.state.globals
  output_open : ∀ x, t.tree.Below id x → t.state.isHidden x = false → u.state.output x = []
  output_hidden : ∀ x, t.tree.Below id x → t.state.isHidden x = true →
    u.state.output x = t.state.output x
  output_outside : ∀ x, ¬ Reach t.tree.get? id x → u.state.output x = t.state.output x
  hidden : ∀ x, u.state.isHidden x = true ↔ t.state.isHidden x = true ∧ ¬ t.tree.Below id x
  touched : ∀ x, u.state.isTouched x = true ↔ t.state.isTouched x = true ∧
    ¬ (x = id ∨ t.tree.Below id x ∧
      ¬ ∃ y, t.tree.Below id y ∧ t.state.isHidden y = true ∧ Reach t.tree.get? y x)
  rootRendered : u.state.rootRendered = true ↔ t.state.rootRendered = true ∨ id = rootId

theorem effect_renderAt (ht : t.Sound) {b : Block} (hb : t.tree.get? id = some b) (e : Engine)
    (log : CallLog) :
    t.RenderEffect id (t.renderAt e id log).2.1 ∧
    ∃ chunk, (t.renderAt e id log).2.1.state.output id = t.state.output id ++ chunk ∧
      ∀ text, ((t.withOutput id text).renderAt e id log).2.1.state.output id = text ++ chunk := by
  have htree := ht.tree.tree
  obtain ⟨o, ho, rfl, hm, hpre⟩ := Tree.preorder_of_live htree hb
  have hn := hm.nodup_preorder htree
  have hids := fun x => hm.mem_ids_iff (x := x) htree
  have hinner := fun x => hm.mem_inner_iff (x := x) htree
  have h := Pass.changes_block e t.tree.calls false false o hn ⟨t.state, ∅, log⟩
  have hrender : ∀ s : State, ({ t with state := s } : Template).renderAt e o.id log = _ :=
    fun s => renderAt_of_outline ho s log
  rw [show t.renderAt e o.id log = _ from hrender t.state]
  have hmarks : ∀ {p r : Bool} {q : Prop} [Decidable q], r = (p && decide (¬ q)) →
      (r = true ↔ p = true ∧ ¬ q) := by
    intro p r q _ hr
    rw [hr, Bool.and_eq_true, decide_eq_true_eq]
  have hput : ∀ x, t.tree.Below o.id x → x ∉ [o.id] := fun x hx hmem =>
    hx.2 (List.mem_singleton.mp hmem)
  -- `Pass.changes_block` speaks of the outline that is walked, the fields below of the tree.
  constructor
  · exact {
      tree := rfl
      current := rfl
      nextInclusion := rfl
      locals := by
        intro x v
        rw [← hm.mem_listed_iff]
        refine (Eq.congr_left (h.locals x)).trans ?_
        by_cases hx : x ∈ Reference.listed o.preorder
        · simp [hx]
        · simp [hx]
      globals := h.globals
      output_open := fun x hx hopen =>
        (h.output x (hput x hx)).trans (if_pos ⟨(hinner x).mpr hx, hopen⟩)
      output_hidden := by
        intro x hx hhidden
        refine (h.output x (hput x hx)).trans (if_neg ?_)
        intro hopen
        rw [show t.state.isHidden x = false from hopen.2] at hhidden
        cases hhidden
      output_outside := by
        intro x hx
        have hout : x ∉ o.preorder.map (·.1) := fun hmem => hx ((hids x).mp hmem)
        exact (Pass.sameAt_block e t.tree.calls false false o hout ⟨t.state, ∅, log⟩).output
      hidden := by
        intro x
        refine (hmarks (h.hidden x)).trans ?_
        rw [hinner x]
        rfl
      touched := by
        intro x
        refine (hmarks (h.touched x)).trans (and_congr_right fun _ => not_congr ?_)
        exact hm.exposed_iff_below htree
      rootRendered := by
        have hroot : rootId ∈ o.preorder.map (·.1) ↔ o.id = rootId := by
          rw [hids]
          exact ⟨htree.eq_of_reach_root, fun he => he ▸ .refl⟩
        refine (Eq.congr_left h.rootRendered).trans ?_
        rw [Bool.or_eq_true, decide_eq_true_eq, hroot] }
  · obtain ⟨chunk, hchunk, hall⟩ := Pass.output_block e t.tree.calls false o hn ⟨t.state, ∅, log⟩
    refine ⟨chunk, hchunk, ?_⟩
    intro text
    rw [withOutput, hrender]
    exact hall text

theorem effect_render (ht : t.Sound) {name : Text} (hid : t.tree.lookup name = .ok id) (e : Engine)
    (log : CallLog) :
    t.RenderEffect id (t.render e name log).2.1 ∧
    ∃ chunk, (t.render e name log).2.1.state.output id = t.state.output id ++ chunk ∧
      ∀ text, ((t.withOutput id text).render e name log).2.1.state.output id = text ++ chunk := by
  obtain ⟨b, hb, -⟩ := Tree.get?_of_find? (Tree.lookup_eq_ok_iff.mp hid)
  have hrender : ∀ s : State, ({ t with state := s } : Template).render e name log =
      (.ok (({ t with state := s } : Template).renderAt e id log).1,
        (({ t with state := s } : Template).renderAt e id log).2) := by
    intro s
    rw [render, hid]
  have h := effect_renderAt ht hb e log
  rw [show t.render e name log = _ from hrender t.state]
  refine ⟨h.1, ?_⟩
  obtain ⟨chunk, hchunk, hall⟩ := h.2
  refine ⟨chunk, hchunk, ?_⟩
  intro text
  rw [withOutput, hrender]
  exact hall text

end Template

namespace Session

open Template

/--
Whatever was done before, and whatever the options: a render uses up the variables of the blocks it
walks, adds to the output of its block a text that does not depend on that output, clears the
outputs it takes, and drops marks as told by `RenderEffect`.
-/
theorem render_effect (fs : Files) (e₀ : Engine) (ops : List Operation) (e : Engine) {name : Text}
    {id : BlockId} (hid : ((start fs).run e₀ ops).template.tree.lookup name = .ok id)
    (log : CallLog) :
    let t := ((start fs).run e₀ ops).template
    t.RenderEffect id (t.render e name log).2.1 ∧
    ∃ chunk, (t.render e name log).2.1.state.output id = t.state.output id ++ chunk ∧
      ∀ text, ((t.withOutput id text).render e name log).2.1.state.output id = text ++ chunk :=
  effect_render (sound_run e₀ Template.sound_empty ops) hid e log

def nestedSource : Text :=
  ("<!-- BEGIN a -->{x}" ++
    "<!-- BEGIN b -->{y}func_u('{y}')<!-- BEGIN c -->c<!-- END c --><!-- END b -->" ++
    "<!-- BEGIN d -->d<!-- END d --><!-- END a -->").toList

def nestedSteps : List Operation :=
  [.compile nestedSource, .setLocals (some ['y']) (.text ['&']), .render ['b'],
    .setLocals (some ['y']) (.text ['2']), .hideBlock ['b'], .touchBlock ['c'], .touchBlock ['d']]

theorem render_effect_nested :
    let t := ((start .empty).run .standard nestedSteps).template
    let u := (t.render .standard ['a'] []).2.1
    (t.tree.lookup ['a']).toOption = some 4 ∧ t.RenderEffect 4 u ∧
    t.state.outputs.entries = [(2, "&%26".toList)] ∧
    u.state.outputs.entries = [(2, "&%26".toList), (4, "{x}d".toList)] ∧
    t.state.marks.entries = [(1, .touched), (2, .hidden), (3, .touched)] ∧
    u.state.marks.entries = [(1, .touched)] ∧
    t.state.locals.get? ['y'] = some ['2'] ∧ u.state.locals.get? ['y'] = none := by
  have hid : ((start .empty).run .standard nestedSteps).template.tree.lookup ['a'] = .ok 4 :=
    Tree.lookup_eq_ok_iff.mpr (by decide +kernel)
  refine ⟨by rw [hid]; rfl, (render_effect .empty .standard nestedSteps .standard hid []).1, ?_⟩
  decide +kernel

end Session

end BlockTemplate
