import BlockTemplate.Proofs.Tree.Edit

/-!
# Blocks that an edit spares

Slots and the numbers of calls are given out again once they are free. An edit spares a block if the
block stands in its slot as it did and each of its calls has its number.
-/

namespace BlockTemplate.Tree

open Lookup (IsTree)

variable {kept : BlockId → Prop} {t u v : Tree} {id p : BlockId} {b : Block}

structure Spares (kept : BlockId → Prop) (t u : Tree) : Prop where
  blocks : ∀ x, kept x → u.get? x = t.get? x
  calls : ∀ x b, kept x → t.get? x = some b → ∀ c ∈ b.calls, u.calls.get? c = t.calls.get? c

namespace Spares

theorem refl (kept : BlockId → Prop) (t : Tree) : Spares kept t t :=
  ⟨fun _ _ => rfl, fun _ _ _ _ _ _ => rfl⟩

theorem trans (h₁ : Spares kept t u) (h₂ : Spares kept u v) : Spares kept t v where
  blocks := fun x hx => (h₂.blocks x hx).trans (h₁.blocks x hx)
  calls := by
    intro x b hx hb c hc
    have hu : u.get? x = some b := (h₁.blocks x hx).trans hb
    exact (h₂.calls x b hx hu c hc).trans (h₁.calls x b hx hb c hc)

theorem of_slots (hc : u.calls = t.calls) (h : ∀ x, kept x → u.get? x = t.get? x) :
    Spares kept t u where
  blocks := h
  calls := by
    intro x b _ _ c _
    rw [hc]

end Spares

theorem Sound.spares_withCalls (h : t.Sound) {calls : CallTable} (hg : t.calls.Extends calls) :
    Spares kept t { t with calls := calls } where
  blocks := fun _ _ => rfl
  calls := by
    intro x b _ hb c hc
    obtain ⟨call, hcall⟩ := h.known x b hb c hc
    exact (hg c call hcall).trans hcall.symm

theorem spares_releaseCalls (t : Tree) : Spares kept t t.releaseCalls where
  blocks := fun _ _ => rfl
  calls := by
    intro x b _ hb c hc
    rw [releaseCalls, CallTable.get?_keepOnly, if_pos (mem_usedCalls hb hc)]

theorem spares_graftUnder (f : Fragment) (change : Block → Block)
    (hlive : ∀ x, kept x → ∃ b, t.get? x = some b) (hp : ¬ kept p) :
    Spares kept t ((t.graftUnder p f).2.modify p change) := by
  refine .of_slots (calls_graftAt _ _ _ _) ?_
  intro x hx
  obtain ⟨b, hb⟩ := hlive x hx
  have hne : x ≠ p := by
    rintro rfl
    exact hp hx
  have hnot : x ∉ t.allocate f.length := by
    intro hm
    rw [get?_of_mem_allocate hm] at hb
    cases hb
  rw [get?_modify, if_neg hne]
  exact get?_graftAt_of_not_mem (t.fits_allocate f.length) (t.length_allocate f.length) hnot

theorem spares_prune (ht : IsTree t.get? rootId) (hb : t.get? id = some b) (hid : ¬ kept id)
    (hbelow : ∀ x ∈ t.descendants id, ¬ kept x) : Spares kept t (t.prune id) := by
  refine .of_slots rfl ?_
  intro x hx
  have hne : x ≠ id := by
    rintro rfl
    exact hid hx
  refine (get?_prune ht hb x).2.2 fun hr => ?_
  exact hbelow x ((mem_descendants_iff ht hb).mpr ⟨hr, hne⟩) hx

theorem spares_graftOver {f : Fragment} (hf : IsTree f.look 0) (hb : t.get? id = some b)
    (hleaf : b.children = []) (hlive : ∀ x, kept x → ∃ b, t.get? x = some b) (hid : ¬ kept id) :
    Spares kept t (t.graftOver id f) := by
  refine .of_slots (calls_graftAt _ _ _ _) ?_
  intro x hx
  obtain ⟨d, hd⟩ := hlive x hx
  have hne : x ≠ id := by
    rintro rfl
    exact hid hx
  rw [(plant_graftOver hf hb hleaf).kept hd hne, hd]

theorem spares_replace (ht : IsTree t.get? rootId) (hb : t.get? id = some b) {f : Fragment}
    (hf : IsTree f.look 0) (hlive : ∀ x, kept x → ∃ b, t.get? x = some b) (hid : ¬ kept id)
    (hbelow : ∀ x ∈ t.descendants id, ¬ kept x) :
    Spares kept t ((t.prune id).graftOver id f).releaseCalls := by
  have hprune := spares_prune ht hb hid hbelow
  have hleaf := (get?_prune ht hb id).1 rfl
  refine hprune.trans (.trans (spares_graftOver hf hleaf rfl ?_ hid) (spares_releaseCalls _))
  intro x hx
  obtain ⟨d, hd⟩ := hlive x hx
  exact ⟨d, (hprune.blocks x hx).trans hd⟩

theorem spares_dissolve (hb : t.get? id = some b) (hp : b.parent = some p) (token : Text)
    (hid : ¬ kept id) (habove : ¬ kept p) (hbelow : ∀ c ∈ b.children, ¬ kept c) :
    Spares kept t (t.dissolve id token) := by
  refine .of_slots (calls_dissolve t id token) ?_
  intro x hx
  have hxid : x ≠ id := by
    rintro rfl
    exact hid hx
  have hxp : x ≠ p := by
    rintro rfl
    exact habove hx
  rw [get?_dissolve hb hp, if_neg hxid]
  simp only [if_neg hxp, if_neg (fun hm => hbelow x hm hx), Option.map_id']

end BlockTemplate.Tree
