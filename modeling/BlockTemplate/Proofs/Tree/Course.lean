import BlockTemplate.Proofs.Template.Attach
import BlockTemplate.Proofs.Tree.Room

/-!
# Courses of edits

All that is done to a tree is a course of a few edits. Each keeps the tree sound, and leaves as many
slots as there were or as many as it leaves blocks. So over a course the slots are as many as there ever
were blocks at the same time.
-/

namespace BlockTemplate

/-- What may be done to the blocks and the calls of a tree. -/
inductive TreeEdit where
  | intern (cs : List Call)
  | releaseCalls
  /-- puts a fragment into a new block in place of a placeholder of the block `parent` -/
  | graftUnder (d : Dialect) (parent : BlockId) (placeholder : Text) (f : Fragment)
  | prune (id : BlockId)
  /-- puts a fragment in place of a block -/
  | graftOver (id : BlockId) (f : Fragment)
  | dissolve (id : BlockId) (token : Text)

namespace TreeEdit

def apply (t : Tree) : TreeEdit → Tree
  | .intern cs => { t with calls := CallTable.internList cs t.calls }
  | .releaseCalls => t.releaseCalls
  | .graftUnder d parent placeholder f =>
    let (id, tree) := t.graftUnder parent f
    tree.modify parent (Block.adopt d placeholder (Template.topName f) id)
  | .prune id => t.prune id
  | .graftOver id f => t.graftOver id f
  | .dissolve id token => t.dissolve id token

def takes (t : Tree) : TreeEdit → List Text
  | .prune id => (t.namesUnder id).tail
  | .dissolve id _ => ((t.get? id).map (·.name)).toList
  | _ => []

def puts : TreeEdit → List Text
  | .graftUnder _ _ _ f => f.map (·.name)
  | .graftOver _ f => f.tail.map (·.name)
  | _ => []

/-- The blocks that the edit is about are there, and a fragment fits where it is put. -/
def Valid (t : Tree) : TreeEdit → Prop
  | .intern _ | .releaseCalls => True
  | .graftUnder _ parent _ f => t.Live parent ∧ (∃ top, f.Ready top t.calls) ∧ f.Named t []
  | .prune id => t.Live id
  | .graftOver id f => ∃ b, t.get? id = some b ∧ b.children = [] ∧ f.Ready b.name t.calls ∧
    f.Named t [b.name]
  | .dissolve id _ => ∃ b p, t.get? id = some b ∧ b.parent = some p

variable {t : Tree} {edit : TreeEdit}

theorem sound_apply (hs : t.Sound) (h : edit.Valid t) : (edit.apply t).Sound := by
  cases edit with
  | intern cs => exact hs.withCalls (CallTable.extends_internList cs t.calls) (hs.calls.internList cs)
  | releaseCalls => exact hs.releaseCalls
  | graftUnder d parent placeholder f =>
    obtain ⟨⟨b, hb⟩, ⟨top, hr⟩, hn⟩ := h
    exact (hs.graftUnder hb hr hn.distinct
      (fun x c i g hx hg he => List.not_mem_nil (hn.mem_leaving hx (List.mem_of_getElem? hg) he))
      (Block.adopt d placeholder (Template.topName f) (t.graftUnder parent f).1)
      ⟨rfl, rfl, rfl, rfl⟩).1
  | prune id =>
    obtain ⟨b, hb⟩ := h
    exact hs.prune hb
  | graftOver id f =>
    obtain ⟨b, hb, hbare, hr, hn⟩ := h
    refine (hs.graftOver hb hbare hr hn.distinct fun x c i g hx hne hg he => hne ?_).1
    have hleaving := hn.mem_leaving hx (List.mem_of_getElem? hg) he
    exact hs.distinct x id c b hx hb (he.trans (List.mem_singleton.mp hleaving))
  | dissolve id token =>
    obtain ⟨b, p, hb, hp⟩ := h
    exact hs.dissolve hb hp token

theorem names_apply (hs : t.Sound) (h : edit.Valid t) : ∃ kept,
    t.names.Perm (edit.takes t ++ kept) ∧ (edit.apply t).names.Perm (edit.puts ++ kept) := by
  cases edit with
  | intern cs => exact ⟨t.names, .rfl, .rfl⟩
  | releaseCalls => exact ⟨t.names, .rfl, .rfl⟩
  | graftUnder d parent placeholder f =>
    have hnames : (apply t (.graftUnder d parent placeholder f)).names =
        (t.graftUnder parent f).2.names :=
      congrArg List.reduceOption (Tree.labels_modify _ parent fun _ => rfl)
    exact ⟨t.names, .rfl, hnames ▸ t.names_graftUnder parent f⟩
  | prune id =>
    obtain ⟨b, hb⟩ := h
    exact ⟨(t.prune id).names, Tree.names_prune hs.tree hb, .rfl⟩
  | graftOver id f =>
    obtain ⟨b, hb, -, hr, -⟩ := h
    obtain ⟨c, hc, hn⟩ := hr.head_name
    obtain ⟨rest, rfl⟩ := List.head?_eq_some_iff.mp hc
    exact ⟨t.names, .rfl, Tree.names_graftOver hb hn.symm⟩
  | dissolve id token =>
    obtain ⟨b, -, hb, -⟩ := h
    have htakes : takes t (.dissolve id token) = [b.name] := by
      rw [takes, hb]
      rfl
    exact ⟨(t.dissolve id token).names, htakes ▸ Tree.names_dissolve hb token, .rfl⟩

theorem length_apply (hs : t.Sound) (h : edit.Valid t) :
    (edit.apply t).slots.length = max t.slots.length (edit.apply t).liveCount := by
  have hsame : (edit.apply t).slots.length = t.slots.length →
      (edit.apply t).slots.length = max t.slots.length (edit.apply t).liveCount := by
    have := (edit.apply t).liveCount_le
    omega
  cases edit with
  | intern cs => exact hsame rfl
  | releaseCalls => exact hsame rfl
  | graftUnder d parent placeholder f =>
    obtain ⟨kept, hkept, hnames⟩ := names_apply hs h
    have hcount := hnames.length_eq
    have hold := hkept.length_eq
    -- The tree has the old names and those of the fragment, which is what the slots are made for.
    have hlen : (apply t (.graftUnder d parent placeholder f)).slots.length = _ :=
      (Tree.length_modify ..).trans (t.length_graftUnder parent f)
    rw [hlen]
    simp only [Tree.liveCount, takes, puts, List.nil_append, List.length_append, List.length_map]
      at hcount hold ⊢
    omega
  | prune id => exact hsame ((Tree.length_modify ..).trans (t.length_clear _))
  | graftOver id f =>
    obtain ⟨b, hb, -, hr, -⟩ := h
    obtain ⟨c, hc, hn⟩ := hr.head_name
    exact Tree.length_graftOver_of_same hb hc hn.symm
  | dissolve id token => exact hsame (Tree.length_dissolve t id token)

end TreeEdit

namespace Tree

/-- Valid edits, one after another, make the second tree of the first one. -/
inductive Edited : Tree → List TreeEdit → Tree → Prop
  | nil (t : Tree) : Edited t [] t
  | cons {t u : Tree} {edit : TreeEdit} {edits : List TreeEdit} :
    edit.Valid t → Edited (edit.apply t) edits u → Edited t (edit :: edits) u

/-- The largest number of blocks that were there at the same time, before or after an edit. -/
def peak : Tree → List TreeEdit → Nat
  | t, [] => t.liveCount
  | t, edit :: edits => max t.liveCount (peak (edit.apply t) edits)

variable {t u v : Tree} {edits rest : List TreeEdit}

theorem Edited.append (h : Edited t edits u) (hr : Edited u rest v) :
    Edited t (edits ++ rest) v := by
  induction h with
  | nil => exact hr
  | cons hv _ ih => exact .cons hv (ih hr)

theorem liveCount_le_peak (t : Tree) (edits : List TreeEdit) : t.liveCount ≤ t.peak edits := by
  cases edits with
  | nil => exact Nat.le_refl _
  | cons edit edits => exact Nat.le_max_left ..

theorem Edited.length_eq (h : Edited t edits u) (hs : t.Sound) :
    u.slots.length = max t.slots.length (t.peak edits) := by
  induction h with
  | nil t =>
    have := t.liveCount_le
    rw [peak]
    omega
  | @cons t u edit edits hv _ ih =>
    have hlive := t.liveCount_le
    have hstep := TreeEdit.length_apply hs hv
    have hpeak := liveCount_le_peak (edit.apply t) edits
    rw [peak, ih (TreeEdit.sound_apply hs hv), hstep]
    omega

end Tree

end BlockTemplate
