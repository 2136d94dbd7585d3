import BlockTemplate.Proofs.Render.Within
import BlockTemplate.Proofs.Tree.Edit

/-!
# Attaching fragments

A template is sound if its tree is, and if the current block and every block that output or a mark
is kept for are blocks of the tree. A fragment attached under a block takes nothing away; one that
replaces a block takes its descendants away, with all that was kept for them.
-/

namespace BlockTemplate

open Lookup (Reach Distinct)

def Tree.Live (t : Tree) (id : BlockId) : Prop := ∃ b, t.get? id = some b

theorem Tree.Keeps.live {t u : Tree} (h : t.Keeps u) {id : BlockId} (hid : t.Live id) :
    u.Live id := by
  obtain ⟨b, hb⟩ := hid
  obtain ⟨c, hc, -⟩ := h id b hb
  exact ⟨c, hc⟩

theorem Tree.Sound.live_root {t : Tree} (h : t.Sound) : t.Live rootId := by
  obtain ⟨b, hb, -⟩ := h.tree.top
  exact ⟨b, hb⟩

namespace Template

structure Sound (t : Template) : Prop where
  tree : t.tree.Sound
  current : t.tree.Live t.current
  state : t.state.Within t.tree.Live

structure Carried (t u : Template) : Prop where
  sound : u.tree.Sound
  keeps : t.tree.Keeps u.tree
  state : u.state = t.state
  current : u.current = t.current

variable {t u v : Template} {e : Engine} {f : Fragment} {top : Text} {id : BlockId}

theorem Carried.trans (h₁ : Carried t u) (h₂ : Carried u v) : Carried t v where
  sound := h₂.sound
  keeps := h₁.keeps.trans h₂.keeps
  state := h₂.state.trans h₁.state
  current := h₂.current.trans h₁.current

theorem Sound.carried (h : t.Sound) (hc : Carried t u) : u.Sound where
  tree := hc.sound
  current := by
    rw [hc.current]
    exact hc.keeps.live h.current
  state := by
    rw [hc.state]
    exact h.state.mono fun id hid => hc.keeps.live hid

theorem sound_of_state (h : t.Sound) {s : State} (hs : s.Within t.tree.Live) :
    ({ t with state := s } : Template).Sound := ⟨h.tree, h.current, hs⟩

theorem sound_empty : empty.Sound where
  tree := Tree.sound_empty
  current := Tree.sound_empty.live_root
  state := State.within_fresh {}

theorem sound_renew (h : t.tree.Sound) : t.renew.Sound := ⟨h, h.live_root, State.within_fresh _⟩

theorem carried_withCalls (h : t.tree.Sound) {calls : CallTable}
    (hg : t.tree.calls.Extends calls) (hd : calls.Distinct) : Carried t (t.withCalls calls) where
  sound := h.withCalls hg hd
  keeps := Tree.Keeps.refl t.tree
  state := rfl
  current := rfl

theorem carried_under (d : Dialect) (h : t.tree.Sound) {p : BlockId} (hp : t.tree.Live p)
    (placeholder : Text) (hr : f.Ready top t.tree.calls) (hn : f.Named t.tree []) :
    Carried t (t.attach d f (.under p placeholder)).2 := by
  obtain ⟨b, hb⟩ := hp
  have hnames : ∀ x c i g, t.tree.get? x = some c → f.look i = some g → c.name ≠ g.name :=
    fun x c i g hx hg he => List.not_mem_nil (hn.mem_leaving hx (List.mem_of_getElem? hg) he)
  obtain ⟨hs, hk⟩ := h.graftUnder hb hr hn.distinct hnames
    (Block.adopt d placeholder (topName f) (t.tree.graftUnder p f).1) ⟨rfl, rfl, rfl, rfl⟩
  exact ⟨hs, hk, rfl, rfl⟩

theorem live_releaseCalls {t : Tree} {x : BlockId} : t.releaseCalls.Live x ↔ t.Live x := Iff.rfl

theorem named_prune {t : Tree} (h : t.Sound) {b : Block} (hb : t.get? id = some b)
    (hn : f.Named t (Fragment.leavingNames t (some id))) : f.Named (t.prune id) [b.name] where
  nodup := hn.nodup
  leaving := by
    intro g hg hcontains
    obtain ⟨x, hx⟩ := Option.isSome_iff_exists.mp hcontains
    obtain ⟨d, hd, hdn⟩ := Tree.get?_of_find? hx
    obtain ⟨hout, c, hc, hcn, -⟩ := (Tree.pruned h.tree hb).cases hd
    have hleave := hn.mem_leaving hc hg (hcn.symm.trans hdn)
    obtain ⟨y, k, hy, hk, hkn⟩ := (Tree.mem_namesUnder_iff h.tree hb).mp hleave
    -- The block that gives up the name would be `x`, and only the pruned block is still there.
    have hxy := h.distinct y x k c hk hc (hkn.trans (hdn.symm.trans hcn))
    rcases hout with rfl | hout
    · rw [hb, Option.some.injEq] at hc
      rw [List.mem_singleton, ← hdn, hcn, hc]
    · exact absurd (hxy ▸ hy) hout

theorem sound_over_tree {t : Tree} (h : t.Sound) {b : Block} (hb : t.get? id = some b)
    (hr : f.Ready b.name t.calls) (hn : f.Named t (Fragment.leavingNames t (some id))) :
    ((t.prune id).graftOver id f).releaseCalls.Sound ∧
      ∀ x, t.Live x → x ∉ t.descendants id →
        ((t.prune id).graftOver id f).releaseCalls.Live x := by
  have hprune := h.prune hb
  have hcut := Tree.pruned h.tree hb
  have hleaf := (Tree.get?_prune h.tree hb id).1 rfl
  have hnames : ∀ x c i g, (t.prune id).get? x = some c → x ≠ id → f.look i = some g →
      c.name ≠ g.name := by
    intro x c i g hx hne hg he
    have hleave := (named_prune h hb hn).mem_leaving hx (List.mem_of_getElem? hg) he
    exact hne (hprune.distinct x id c _ hx hleaf (he.trans (List.mem_singleton.mp hleave)))
  obtain ⟨hs, hk⟩ := hprune.graftOver hleaf rfl hr hn.distinct hnames
  refine ⟨hs.releaseCalls, ?_⟩
  intro x ⟨c, hc⟩ hx
  rw [Tree.mem_descendants_iff h.tree hb, not_and, not_not] at hx
  have hout : x = id ∨ ¬ Reach t.get? id x := by
    by_cases hreach : Reach t.get? id x
    · exact .inl (hx hreach)
    · exact .inr hreach
  obtain ⟨d, hd, -⟩ := hcut.kept hc hout
  exact live_releaseCalls.mpr (hk.live ⟨d, hd⟩)

theorem sound_over (d : Dialect) (h : t.Sound) {b : Block} (hb : t.tree.get? id = some b)
    (keepOutput : Bool) (hr : f.Ready b.name t.tree.calls)
    (hn : f.Named t.tree (Fragment.leavingNames t.tree (some id))) :
    (t.attach d f (.over id keepOutput)).2.Sound := by
  obtain ⟨htree, hlive⟩ := sound_over_tree h.tree hb hr hn
  have hstate : ((t.tree.descendants id).foldl State.forget t.state).Within
      ((t.tree.prune id).graftOver id f).releaseCalls.Live :=
    (h.state.forgetAll (t.tree.descendants id)).mono fun x hx => hlive x hx.1 hx.2
  refine ⟨htree, ?_, ?_⟩
  · by_cases hc : t.current ∈ t.tree.descendants id
    · simp only [attach, if_pos hc]
      exact htree.live_root
    · simp only [attach, if_neg hc]
      exact hlive t.current h.current hc
  · cases keepOutput with
    | true => exact hstate.unmark id
    | false => exact (hstate.clearOutput id).unmark id

theorem get?_of_lookup {name : Text} (h : t.tree.lookup name = .ok id) :
    ∃ b, t.tree.get? id = some b ∧ b.name = name :=
  Tree.get?_of_find? (Tree.lookup_eq_ok_iff.mp h)

def Admits (t : Template) (top : Text) : Target → Prop
  | .under p _ => t.tree.Live p
  | .over id _ => ∃ b, t.tree.get? id = some b ∧ b.name = top

theorem Carried.admits (hc : Carried t u) {target : Target} (ht : t.Admits top target) :
    u.Admits top target := by
  match target, ht with
  | .under p _, hp => exact hc.keeps.live hp
  | .over id _, ⟨b, hb, hn⟩ =>
    obtain ⟨c, hc, hcb⟩ := hc.keeps id b hb
    exact ⟨c, hc, hcb.trans hn⟩

theorem tree_attach (d : Dialect) (h : t.tree.Sound) {target : Target} (ht : t.Admits top target)
    (hr : f.Ready top t.tree.calls)
    (hn : f.Named t.tree (Fragment.leavingNames t.tree target.replaced)) :
    (t.attach d f target).2.tree.Sound := by
  match target, ht with
  | .under p placeholder, hp => exact (carried_under d h hp placeholder hr hn).sound
  | .over id keepOutput, ⟨b, hb, hname⟩ =>
    subst hname
    exact (sound_over_tree h hb hr hn).1

theorem sound_attach (d : Dialect) (h : t.Sound) {target : Target} (ht : t.Admits top target)
    (hr : f.Ready top t.tree.calls)
    (hn : f.Named t.tree (Fragment.leavingNames t.tree target.replaced)) :
    (t.attach d f target).2.Sound := by
  match target, ht with
  | .under p placeholder, hp => exact h.carried (carried_under d h.tree hp placeholder hr hn)
  | .over id keepOutput, ⟨b, hb, hname⟩ =>
    subst hname
    exact sound_over d h hb keepOutput hr hn

end Template

end BlockTemplate
