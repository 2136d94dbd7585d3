import BlockTemplate.Proofs.Tree.Course

/-!
# Variables that a tree lists

No edit makes up a variable: whatever a tree lists after an edit it listed before, or the edit brought a
block that lists it.
-/

namespace BlockTemplate

def Tree.HasVar (t : Tree) (v : Text) : Prop := ∃ x b, t.get? x = some b ∧ v ∈ b.vars

def Fragment.HasVar (f : Fragment) (v : Text) : Prop := ∃ b ∈ f, v ∈ b.vars

namespace Tree

variable {t u : Tree} {v : Text} {f : Fragment}

theorem get?_put_cases {id x : BlockId} {b c : Block} (h : (t.put id b).get? x = some c) :
    c = b ∨ t.get? x = some c := by
  have hmem : some c = some b ∨ t.slots[x]? = some (some c) := by
    have hx : (t.put id b).slots[x]? = some (some c) := get?_eq_some_iff.mp h
    rw [put] at hx
    split at hx
    · rw [List.getElem?_set] at hx
      split at hx
      · exact .inl (Option.some.inj hx).symm
      · exact .inr hx
    · rw [List.getElem?_append] at hx
      split at hx
      · exact .inr hx
      · exact .inl (List.mem_singleton.mp (List.mem_of_getElem? hx))
  exact hmem.imp Option.some.inj get?_eq_some_iff.mpr

theorem hasVar_graftAt (ids : List BlockId) (above : Option BlockId)
    (h : (t.graftAt ids above f).HasVar v) : t.HasVar v ∨ f.HasVar v := by
  rw [graftAt_eq] at h
  -- Whatever slot a block is put into, its variables are those of the fragment.
  have hvars : ∀ e ∈ ids.zip (f.map (relocate (fun i => ids.getD i rootId) above)),
      v ∈ e.2.vars → f.HasVar v := by
    intro e he hv
    obtain ⟨b, hb, heq⟩ := List.mem_map.mp (List.of_mem_zip he).2
    rw [← heq] at hv
    exact ⟨b, hb, hv⟩
  generalize ids.zip (f.map (relocate (fun i => ids.getD i rootId) above)) = es at h hvars
  induction es generalizing t with
  | nil => exact .inl h
  | cons e es ih =>
    rw [putAll_cons] at h
    rcases ih h fun a ha => hvars a (List.mem_cons_of_mem e ha) with ⟨x, c, hc, hv⟩ | hf
    · rcases get?_put_cases hc with rfl | hold
      · exact .inr (hvars e List.mem_cons_self hv)
      · exact .inl ⟨x, c, hold, hv⟩
    · exact .inr hf

theorem hasVar_modify (id : BlockId) {g : Block → Block} (hg : ∀ b, v ∈ (g b).vars → v ∈ b.vars)
    (h : (t.modify id g).HasVar v) : t.HasVar v := by
  obtain ⟨x, c, hc, hv⟩ := h
  rw [get?_modify] at hc
  split at hc
  · obtain ⟨b, hb, rfl⟩ := Option.map_eq_some_iff.mp hc
    exact ⟨x, b, hb, hg b hv⟩
  · exact ⟨x, c, hc, hv⟩

theorem hasVar_clear (ids : List BlockId) (h : (t.clear ids).HasVar v) : t.HasVar v := by
  obtain ⟨x, c, hc, hv⟩ := h
  rw [get?_clear] at hc
  split at hc
  · cases hc
  · exact ⟨x, c, hc, hv⟩

theorem hasVar_dissolve (id : BlockId) (token : Text) (h : (t.dissolve id token).HasVar v) :
    t.HasVar v := by
  rw [dissolve] at h
  split at h
  · exact h
  · rename_i b hb
    dsimp only at h
    split at h
    · exact hasVar_clear _ h
    · rename_i p _
      -- The parent takes over the variables of the block, and children only get another parent.
      by_cases hv : v ∈ b.vars
      · exact ⟨id, b, hb, hv⟩
      · have habsorb : ∀ c : Block, v ∈ (absorb token id b c).vars → v ∈ c.vars := fun c hc =>
          (mem_foldl_addNew.mp hc).resolve_right hv
        have hchildren := hasVar_modify p habsorb h
        obtain ⟨x, c, hc, hvc⟩ := hchildren
        rw [get?_foldl_modify (f := fun b => { b with parent := some p }) (fun _ => rfl)] at hc
        refine hasVar_clear [id] ?_
        split at hc
        · obtain ⟨d, hd, rfl⟩ := Option.map_eq_some_iff.mp hc
          exact ⟨x, d, hd, hvc⟩
        · exact ⟨x, c, hc, hvc⟩

end Tree

namespace TreeEdit

def brings : TreeEdit → Fragment
  | .graftUnder _ _ _ f | .graftOver _ f => f
  | _ => []

theorem hasVar_apply {t : Tree} {v : Text} (edit : TreeEdit) (h : (edit.apply t).HasVar v) :
    t.HasVar v ∨ edit.brings.HasVar v := by
  cases edit with
  | intern cs => exact .inl h
  | releaseCalls => exact .inl h
  | graftUnder d parent placeholder f =>
    exact Tree.hasVar_graftAt _ _ (Tree.hasVar_modify parent (fun b hb => List.mem_of_mem_filter hb) h)
  | prune id =>
    have hclear : (t.clear (t.descendants id)).HasVar v :=
      Tree.hasVar_modify id (g := fun b => { b with children := [] }) (fun b hb => hb) h
    exact .inl (Tree.hasVar_clear _ hclear)
  | graftOver id f => exact Tree.hasVar_graftAt _ _ h
  | dissolve id token => exact .inl (Tree.hasVar_dissolve id token h)

end TreeEdit

end BlockTemplate
