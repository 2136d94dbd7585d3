import BlockTemplate.Proofs.Call.Interner
import BlockTemplate.Proofs.Tree.Arena
import BlockTemplate.Proofs.Tree.Course

/-!
# How an arena stores a tree

An arena stores a tree if it has the same blocks in slots of its own, which refer to each other by
these slots, in as many slots, and the calls of the tree under their numbers. Every edit of a tree is
made to an arena by the operations of the arena, which goes by names, and the arena stores the tree
that is left. Which empty slot a block takes is for the arena alone to say.
-/

namespace BlockTemplate

open Lookup (Reach IsTree)

def Block.placed (place : BlockId → BlockId) (b : Block) : Block :=
  { b with children := b.children.map place, parent := b.parent.map place }

theorem Block.placed_congr {place place' : BlockId → BlockId} {b : Block}
    (hc : ∀ x ∈ b.children, place x = place' x) (hp : ∀ p, b.parent = some p → place p = place' p) :
    b.placed place = b.placed place' := by
  have hparent : b.parent.map place = b.parent.map place' := by
    cases hb : b.parent with
    | none => rfl
    | some p => exact congrArg some (hp p hb)
  rw [placed, placed, List.map_congr_left hc, hparent]

namespace Arena

def slotOf? (a : Arena) (t : Tree) (id : BlockId) : Option BlockId :=
  (t.get? id).bind fun b => a.names.get? b.name

def graftUnder (a : Arena) (d : Dialect) (p : BlockId) (placeholder : Text) (f : Fragment) : Arena :=
  let (id, a) := a.graft f none
  (a.modify id fun b => { b with parent := some p }).modify p
    (Block.adopt d placeholder (Template.topName f) id)

/-- An edit of the tree `t`, made to the arena that stores it. -/
def apply (a : Arena) (t : Tree) : TreeEdit → Arena
  | .intern cs => a.internAll cs
  | .releaseCalls => a.releaseCalls
  | .graftUnder d p placeholder f =>
    ((a.slotOf? t p).map fun p => a.graftUnder d p placeholder f).getD a
  | .prune id => ((a.slotOf? t id).map a.removeDescendants).getD a
  | .graftOver id f => ((a.slotOf? t id).map fun id => (a.graft f (some id)).2).getD a
  | .dissolve id token => ((a.slotOf? t id).map fun id => a.inline id token).getD a

def run : Arena → Tree → List TreeEdit → Arena
  | a, _, [] => a
  | a, t, edit :: edits => run (a.apply t edit) (edit.apply t) edits

/-- The arena has the blocks of the tree at these places, and the calls of the tree. -/
structure Stores (a : Arena) (t : Tree) (place : BlockId → BlockId) : Prop where
  orderly : a.Orderly []
  root : place rootId = rootId
  block : ∀ x b, t.get? x = some b → a.get? (place x) = some (b.placed place)
  inj : ∀ x y, t.Live x → t.Live y → place x = place y → x = y
  onto : ∀ y, (∃ c, a.get? y = some c) → ∃ x, t.Live x ∧ place x = y
  size : a.slots.length = t.slots.length
  calls : a.calls.Follows t.calls

def Mirrors (a : Arena) (t : Tree) : Prop := ∃ place, a.Stores t place

variable {a u : Arena} {t : Tree} {place : BlockId → BlockId} {id : BlockId} {b : Block}
  {f : Fragment}

theorem stores_start : start.Stores .empty fun id => id where
  orderly := by
    refine ⟨fun name id => ?_, List.nodup_nil, fun id => ?_⟩
    · have hget : start.get? id = Tree.empty.get? id := rfl
      rw [hget, Tree.get?_empty, start, Dict.get?_insert, Dict.get?_empty]
      by_cases hn : name = rootName
      · subst hn
        by_cases hid : id = rootId
        · simp [hid]
        · have hid' : rootId ≠ id := fun he => hid he.symm
          simp [hid, hid']
      · have hn' : rootName ≠ name := fun he => hn he.symm
        by_cases hid : id = rootId <;> simp [hn, hn', hid]
    · cases id <;> simp [start]
  root := rfl
  block := by
    intro x b hb
    rw [Tree.get?_empty] at hb
    split at hb
    · rename_i hx
      cases hb
      subst hx
      rfl
    · cases hb
  inj := fun _ _ _ _ he => he
  onto := fun y hy => ⟨y, hy, rfl⟩
  size := rfl
  calls := Interner.follows_empty

theorem mirrors_start : start.Mirrors .empty := ⟨_, stores_start⟩

theorem Orderly.liveCount_add_free (h : a.Orderly []) :
    a.blocks.liveCount + a.free.length = a.slots.length := by
  have hvacant : a.free.Perm a.blocks.vacant := by
    refine (List.perm_ext_iff_of_nodup h.nodup a.blocks.nodup_vacant).mpr fun id => ?_
    refine (h.empty_iff id).trans (Iff.trans ?_ Tree.mem_vacant_iff.symm)
    change _ ↔ id < a.slots.length ∧ a.slots[id]?.join = none
    constructor
    · intro hid
      exact ⟨(List.getElem?_eq_some_iff.mp hid).1, by rw [hid]; rfl⟩
    · rintro ⟨hlt, hid⟩
      rw [List.getElem?_eq_getElem hlt] at hid ⊢
      exact congrArg some hid
  rw [hvacant.length_eq]
  exact a.blocks.liveCount_add_vacant

namespace Stores

variable (h : a.Stores t place) (hs : t.Sound)
include h

theorem of_get? {y : BlockId} {c : Block} (hy : a.get? y = some c) :
    ∃ x b, t.get? x = some b ∧ place x = y ∧ c = b.placed place := by
  obtain ⟨x, ⟨b, hb⟩, rfl⟩ := h.onto y ⟨c, hy⟩
  rw [h.block x b hb, Option.some.injEq] at hy
  exact ⟨x, b, hb, rfl, hy.symm⟩

theorem slotOf?_eq (hb : t.get? id = some b) : a.slotOf? t id = some (place id) := by
  rw [slotOf?, hb, Option.bind_some]
  exact (h.orderly.index _ _).mpr ⟨_, h.block id b hb, rfl⟩

theorem reach {x y : BlockId} (hr : Reach t.get? x y) : Reach a.get? (place x) (place y) := by
  induction hr with
  | refl => exact .refl
  | child _ hp hm ih => exact .child ih (h.block _ _ hp) (List.mem_map_of_mem hm)

include hs

theorem exists_of_reach {x y : BlockId} (hx : t.Live x) (hr : Reach a.get? (place x) y) :
    ∃ z, t.Live z ∧ Reach t.get? x z ∧ place z = y := by
  induction hr with
  | refl => exact ⟨x, hx, .refl, rfl⟩
  | child _ hp hm ih =>
    obtain ⟨z, ⟨b, hb⟩, hz, rfl⟩ := ih
    rw [h.block z b hb, Option.some.injEq] at hp
    rw [← hp] at hm
    obtain ⟨c, hc, rfl⟩ := List.mem_map.mp hm
    obtain ⟨d, hd, -⟩ := hs.tree.child_live hb hc
    exact ⟨c, ⟨d, hd⟩, .child hz hb hc, rfl⟩

theorem reach_iff {x y : BlockId} (hx : t.Live x) (hy : t.Live y) :
    Reach a.get? (place x) (place y) ↔ Reach t.get? x y := by
  refine ⟨fun hr => ?_, h.reach⟩
  obtain ⟨z, hz, hr, he⟩ := h.exists_of_reach hs hx hr
  exact h.inj z y hz hy he ▸ hr

theorem isTree : IsTree a.get? rootId where
  top := by
    obtain ⟨b, hb, hn⟩ := hs.tree.top
    refine ⟨b.placed place, h.root ▸ h.block rootId b hb, ?_⟩
    rw [Block.placed, hn]
    rfl
  child_iff := by
    intro p c y hp
    obtain ⟨x, b, hb, rfl, rfl⟩ := h.of_get? hp
    constructor
    · intro hm
      obtain ⟨z, hz, rfl⟩ := List.mem_map.mp hm
      obtain ⟨d, hd, hdp⟩ := hs.tree.child_live hb hz
      refine ⟨d.placed place, h.block z d hd, ?_⟩
      rw [Block.placed, hdp]
      rfl
    · rintro ⟨d, hd, hdp⟩
      obtain ⟨z, e, he, rfl, rfl⟩ := h.of_get? hd
      obtain ⟨q, hq, hqx⟩ := Option.map_eq_some_iff.mp hdp
      have hlive := hs.tree.parent_live z e q he hq
      rw [h.inj q x hlive ⟨b, hb⟩ hqx] at hq
      exact List.mem_map_of_mem (hs.tree.mem_children hb he hq)
  parent_live := by
    intro c d p hc hd
    obtain ⟨x, b, hb, rfl, rfl⟩ := h.of_get? hc
    obtain ⟨q, hq, rfl⟩ := Option.map_eq_some_iff.mp hd
    obtain ⟨e, he⟩ := hs.tree.parent_live x b q hb hq
    exact ⟨e.placed place, h.block q e he⟩
  children_nodup := by
    intro p c hp
    obtain ⟨x, b, hb, rfl, rfl⟩ := h.of_get? hp
    refine List.Nodup.map_on (fun y hy z hz he => ?_) (hs.tree.children_nodup x b hb)
    obtain ⟨d, hd, -⟩ := hs.tree.child_live hb hy
    obtain ⟨e, he', -⟩ := hs.tree.child_live hb hz
    exact h.inj y z ⟨d, hd⟩ ⟨e, he'⟩ he
  reached := by
    intro y c hy
    obtain ⟨x, b, hb, rfl, rfl⟩ := h.of_get? hy
    exact h.root ▸ h.reach (hs.tree.reached x b hb)

theorem liveCount_eq : a.blocks.liveCount = t.liveCount := by
  refine ((List.perm_ext_iff_of_nodup (Tree.nodup_names h.orderly.names_unique)
    (Tree.nodup_names hs.distinct)).mpr fun name => ?_).length_eq
  rw [Tree.mem_names_iff, Tree.mem_names_iff]
  constructor
  · rintro ⟨y, c, hy, hn⟩
    obtain ⟨x, b, hb, -, rfl⟩ := h.of_get? hy
    exact ⟨x, b, hb, hn⟩
  · rintro ⟨x, b, hb, hn⟩
    exact ⟨place x, b.placed place, h.block x b hb, hn⟩

omit hs

theorem mem_usedCalls_iff {c : CallId} : c ∈ a.usedCalls ↔ c ∈ t.usedCalls := by
  constructor
  · intro hc
    obtain ⟨y, d, hd, hm⟩ := Tree.exists_of_mem_usedCalls hc
    obtain ⟨x, b, hb, -, rfl⟩ := h.of_get? hd
    exact Tree.mem_usedCalls hb hm
  · intro hc
    obtain ⟨x, b, hb, hm⟩ := Tree.exists_of_mem_usedCalls hc
    exact Tree.mem_usedCalls (t := a.blocks) (h.block x b hb) hm

/-- No block was in either of two slots that were empty. -/
theorem paired_of_empty {y z : BlockId} (hy : t.get? y = none) (hz : a.get? z = none) {x : BlockId}
    (hx : t.Live x) : y = x ↔ z = place x := by
  obtain ⟨b, hb⟩ := hx
  constructor
  · rintro rfl
    rw [hb] at hy
    cases hy
  · rintro rfl
    rw [h.block x b hb] at hz
    cases hz

theorem withCalls {calls : Interner} {table : CallTable} (hc : calls.Follows table) :
    ({ a with calls := calls } : Arena).Stores { t with calls := table } place :=
  ⟨⟨h.orderly.index, h.orderly.nodup, h.orderly.empty_iff⟩, h.root, h.block, h.inj, h.onto, h.size,
    hc⟩

end Stores

theorem internAll_eq (cs : List Call) (a : Arena) :
    a.internAll cs = { a with calls := a.calls.internAll cs } := by
  induction cs generalizing a with
  | nil => rfl
  | cons c cs ih => exact ih (a.intern c).2

theorem Stores.internAll (h : a.Stores t place) (cs : List Call) :
    (a.internAll cs).Stores { t with calls := CallTable.internList cs t.calls } place := by
  rw [internAll_eq]
  exact h.withCalls (h.calls.internAll cs)

theorem Stores.releaseCalls (h : a.Stores t place) (hs : t.Sound) :
    a.releaseCalls.Stores t.releaseCalls place := by
  refine h.withCalls (h.calls.release (fun c => h.mem_usedCalls_iff) fun c hc => ?_)
  obtain ⟨x, b, hb, hm⟩ := Tree.exists_of_mem_usedCalls hc
  exact hs.known x b hb c hm

theorem Stores.modify (h : a.Stores t place) (hid : t.Live id) {g k : Block → Block}
    (hg : ∀ b, t.get? id = some b → k (b.placed place) = (g b).placed place)
    (hname : ∀ b, (k b).name = b.name) :
    (a.modify (place id) k).Stores (t.modify id g) place := by
  have hlive : ∀ x, (t.modify id g).Live x ↔ t.Live x := by
    intro x
    rw [Tree.Live, Tree.Live, Tree.get?_modify]
    split
    · cases t.get? x <;> simp
    · exact Iff.rfl
  refine ⟨h.orderly.modify (place id) hname, h.root, fun x b hb => ?_, fun x y hx hy => ?_, ?_,
    (a.length_modify _ _).trans (h.size.trans (Tree.length_modify t id g).symm), h.calls⟩
  · rw [Tree.get?_modify] at hb
    rw [get?_modify]
    by_cases hx : x = id
    · subst hx
      rw [if_pos rfl] at hb ⊢
      obtain ⟨c, hc, rfl⟩ := Option.map_eq_some_iff.mp hb
      rw [h.block x c hc, Option.map_some, hg c hc]
    · rw [if_neg hx] at hb
      rw [if_neg fun he => hx (h.inj x id ⟨b, hb⟩ hid he), h.block x b hb]
  · exact h.inj x y ((hlive x).mp hx) ((hlive y).mp hy)
  · rintro y ⟨c, hc⟩
    have hy : ∃ d, a.get? y = some d := by
      rw [get?_modify] at hc
      split at hc
      · obtain ⟨d, hd, -⟩ := Option.map_eq_some_iff.mp hc
        exact ⟨d, hd⟩
      · exact ⟨c, hc⟩
    obtain ⟨x, hx, hxy⟩ := h.onto y hy
    exact ⟨x, (hlive x).mpr hx, hxy⟩

theorem Stores.clear (h : a.Stores t place) {ids ids' : List BlockId} (hu : Emptied a u ids')
    (hmem : ∀ x, t.Live x → (place x ∈ ids' ↔ x ∈ ids)) : u.Stores (t.clear ids) place := by
  have hlive : ∀ x, (t.clear ids).Live x → t.Live x ∧ x ∉ ids := by
    rintro x ⟨b, hb⟩
    rw [Tree.get?_clear] at hb
    split at hb
    · cases hb
    · rename_i hx
      exact ⟨⟨b, hb⟩, hx⟩
  refine ⟨hu.orderly, h.root, fun x b hb => ?_, fun x y hx hy => ?_, ?_,
    hu.size.trans (h.size.trans (t.length_clear ids).symm), hu.calls ▸ h.calls⟩
  · obtain ⟨hx, hout⟩ := hlive x ⟨b, hb⟩
    rw [Tree.get?_clear, if_neg hout] at hb
    rw [hu.get?, if_neg fun hm => hout ((hmem x hx).mp hm), h.block x b hb]
  · exact h.inj x y (hlive x hx).1 (hlive y hy).1
  · rintro y ⟨c, hc⟩
    rw [hu.get?] at hc
    split at hc
    · cases hc
    · rename_i hy
      obtain ⟨x, hx, rfl⟩ := h.onto y ⟨c, hc⟩
      refine ⟨x, ?_, rfl⟩
      rw [Tree.Live, Tree.get?_clear, if_neg fun hm => hy ((hmem x hx).mpr hm)]
      exact hx

theorem Stores.removeDescendants (h : a.Stores t place) (hs : t.Sound) (hid : t.Live id) :
    (a.removeDescendants (place id)).Stores (t.prune id) place := by
  obtain ⟨b, hb⟩ := hid
  have htree : IsTree a.blocks.get? rootId := h.isTree hs
  have hb' : a.blocks.get? (place id) = some (b.placed place) := h.block id b hb
  have hlive : ∀ y ∈ a.blocks.descendants (place id), ∃ c, a.get? y = some c := fun y hy =>
    htree.reach_live hb' ((Tree.mem_descendants_iff htree hb').mp hy).1
  have hemptied := emptied_removeAll h.orderly (Tree.nodup_descendants htree hb') hlive
  have hmem : ∀ x, t.Live x →
      (place x ∈ a.blocks.descendants (place id) ↔ x ∈ t.descendants id) := by
    intro x hx
    rw [Tree.mem_descendants_iff htree hb', Tree.mem_descendants_iff hs.tree hb]
    refine and_congr (h.reach_iff hs ⟨b, hb⟩ hx) (not_congr ⟨h.inj x id hx ⟨b, hb⟩, ?_⟩)
    exact congrArg place
  refine (h.clear hemptied hmem).modify ?_ (fun _ _ => rfl) fun _ => rfl
  rw [Tree.Live, Tree.get?_clear, if_neg fun hm =>
    ((Tree.mem_descendants_iff hs.tree hb).mp hm).2 rfl]
  exact ⟨b, hb⟩

theorem flatMap_of_not_mem {c : BlockId} {inner xs : List BlockId} (h : c ∉ xs) :
    (xs.flatMap fun x => if x = c then inner else [x]) = xs := by
  induction xs with
  | nil => rfl
  | cons x xs ih =>
    rw [List.mem_cons, not_or] at h
    have hx : x ≠ c := fun he => h.1 he.symm
    rw [List.flatMap_cons, if_neg hx, ih h.2]
    rfl

theorem spliceAt_map {c : BlockId} {inner xs : List BlockId} (hn : xs.Nodup)
    (hinj : ∀ x ∈ xs, place x = place c → x = c) :
    spliceAt (place c) (inner.map place) (xs.map place) =
      (xs.flatMap fun x => if x = c then inner else [x]).map place := by
  induction xs with
  | nil => rfl
  | cons x xs ih =>
    obtain ⟨hnot, hn⟩ := List.nodup_cons.mp hn
    rw [List.map_cons, spliceAt, List.flatMap_cons]
    by_cases hx : x = c
    · subst hx
      rw [if_pos rfl, if_pos rfl, flatMap_of_not_mem hnot, List.map_append]
    · rw [if_neg hx, if_neg fun he => hx (hinj x List.mem_cons_self he),
        ih hn fun y hy => hinj y (List.mem_cons_of_mem x hy)]
      rfl

theorem Stores.modifyAll (h : a.Stores t place) {ids : List BlockId} (hids : ∀ x ∈ ids, t.Live x)
    {g k : Block → Block} (hg : ∀ b, k (b.placed place) = (g b).placed place)
    (hname : ∀ b, (k b).name = b.name) :
    ((ids.map place).foldl (fun a c => a.modify c k) a).Stores
      (ids.foldl (fun t c => t.modify c g) t) place := by
  induction ids generalizing a t with
  | nil => exact h
  | cons id ids ih =>
    refine ih (h.modify (hids id List.mem_cons_self) (fun b _ => hg b) hname) fun x hx => ?_
    obtain ⟨b, hb⟩ := hids x (List.mem_cons_of_mem id hx)
    rw [Tree.Live, Tree.get?_modify, hb]
    split
    · exact ⟨g b, rfl⟩
    · exact ⟨b, rfl⟩

theorem Stores.inline (h : a.Stores t place) (hs : t.Sound) (hb : t.get? id = some b) {p : BlockId}
    (hp : b.parent = some p) (token : Text) :
    (a.inline (place id) token).Stores (t.dissolve id token) place := by
  obtain ⟨e, he⟩ := hs.tree.parent_live id b p hb hp
  have hid : t.Live id := ⟨b, hb⟩
  have hb' := h.block id b hb
  have hpid : p ≠ id := fun heq => hs.tree.acyclic he (hs.tree.mem_children he hb hp) (heq ▸ .refl)
  have hcleared : (a.remove (place id)).Stores (t.clear [id]) place := by
    refine h.clear (emptied_remove h.orderly hb') fun x hx => ?_
    rw [List.mem_singleton, List.mem_singleton]
    exact ⟨h.inj x id hx hid, congrArg place⟩
  have hkept : ∀ x, x ≠ id → t.Live x → (t.clear [id]).Live x := by
    intro x hx hlive
    rw [Tree.Live, Tree.get?_clear, if_neg fun hm => hx (List.mem_singleton.mp hm)]
    exact hlive
  have hchildren : ∀ c ∈ b.children, (t.clear [id]).Live c := by
    intro c hc
    obtain ⟨d, hd, -⟩ := hs.tree.child_live hb hc
    refine hkept c (fun heq => hs.tree.acyclic hb hc (heq ▸ .refl)) ⟨d, hd⟩
  have hmoved := hcleared.modifyAll hchildren (g := fun b => { b with parent := some p })
    (k := fun b => { b with parent := some (place p) }) (fun _ => rfl) fun _ => rfl
  have hget := Tree.get?_foldl_modify (f := fun b : Block => { b with parent := some p })
    (fun _ => rfl) b.children (t.clear [id]) p
  obtain ⟨d, hd, hdc⟩ : ∃ d, (b.children.foldl
      (fun t c => t.modify c fun b => { b with parent := some p }) (t.clear [id])).get? p = some d ∧
      d.children = e.children := by
    rw [hget, Tree.get?_clear, if_neg fun hm => hpid (List.mem_singleton.mp hm), he]
    split
    · exact ⟨_, rfl, rfl⟩
    · exact ⟨e, rfl, rfl⟩
  have hsplice : spliceAt (place id) (b.children.map place) (e.children.map place) =
      (e.children.flatMap fun x => if x = id then b.children else [x]).map place :=
    spliceAt_map (hs.tree.children_nodup p e he) fun x hx => by
      obtain ⟨c, hc, -⟩ := hs.tree.child_live he hx
      exact h.inj x id ⟨c, hc⟩ hid
  have hparent : (b.placed place).parent = some (place p) := by
    rw [Block.placed, hp]
    rfl
  rw [Arena.inline, hb', Tree.dissolve, hb]
  dsimp only
  rw [hparent, hp]
  refine hmoved.modify ⟨d, hd⟩ (fun c hc => ?_) fun _ => rfl
  rw [hd, Option.some.injEq] at hc
  rw [← hdc, hc] at hsplice
  rw [Tree.absorb, Tree.absorb, Block.placed, Block.placed, Block.placed, ← hsplice]

def placeAlso (place : BlockId → BlockId) (ids ids' : List BlockId) (x : BlockId) : BlockId :=
  match ids.idxOf? x with
  | some i => ids'.getD i rootId
  | none => place x

section PlaceAlso

variable {ids ids' : List BlockId} {x : BlockId}

theorem placeAlso_getD (hn : ids.Nodup) {i : Nat} (hi : i < ids.length) :
    placeAlso place ids ids' (ids.getD i rootId) = ids'.getD i rootId := by
  have hget : ids.getD i rootId = ids[i] := by
    rw [List.getD_eq_getElem?_getD, List.getElem?_eq_getElem hi]
    rfl
  have hidx : ids.idxOf? ids[i] = some i := by
    rw [List.idxOf?, List.findIdx?_eq_some_iff_getElem]
    refine ⟨hi, beq_self_eq_true _, fun j hj he => ?_⟩
    exact Nat.ne_of_lt hj (hn.getElem_inj_iff.mp (eq_of_beq he))
  rw [placeAlso, hget, hidx]

theorem placeAlso_of_not_mem (hx : x ∉ ids) : placeAlso place ids ids' x = place x := by
  have hidx : ids.idxOf? x = none := by
    rw [List.idxOf?, List.findIdx?_eq_none_iff]
    exact fun y hy => beq_false_of_ne fun he => hx (he ▸ hy)
  rw [placeAlso, hidx]

end PlaceAlso

structure GraftedAlike (a u : Arena) (t v : Tree) (place : BlockId → BlockId) (ids ids' : List BlockId)
    (new : Nat) (above : Option BlockId) (f : Fragment) : Prop where
  arena : Grafted a u ids' new (above.map place) f
  tree : IsTree f.look 0
  length : ids.length = f.length
  nodup : ids.Nodup
  placed : ∀ i b, f.look i = some b → v.get? (ids.getD i rootId) =
    some (Tree.relocate (fun i => ids.getD i rootId) above b)
  rest : ∀ x, x ∉ ids → v.get? x = t.get? x
  above_live : ∀ p, above = some p → t.Live p
  /-- a slot that was not empty was one of the same block -/
  paired : ∀ i x, i < f.length → t.Live x → (ids.getD i rootId = x ↔ ids'.getD i rootId = place x)
  size : v.slots.length = u.slots.length
  calls : v.calls = t.calls

namespace GraftedAlike

variable {v : Tree} {ids ids' : List BlockId} {new : Nat} {above : Option BlockId}
  (hg : GraftedAlike a u t v place ids ids' new above f)
include hg

theorem placeAlso_of_live {x : BlockId} (hx : t.Live x) : placeAlso place ids ids' x = place x := by
  by_cases hm : x ∈ ids
  · obtain ⟨i, hi, rfl⟩ := Tree.exists_getD_of_mem hm
    rw [placeAlso_getD hg.nodup hi]
    exact (hg.paired i _ (hg.length ▸ hi) hx).mp rfl
  · exact placeAlso_of_not_mem hm

theorem placeAlso_new {i : Nat} (hi : i < f.length) :
    placeAlso place ids ids' (ids.getD i rootId) = ids'.getD i rootId :=
  placeAlso_getD hg.nodup (hg.length ▸ hi)

theorem relocate_placed {i : Nat} {b : Block} (hb : f.look i = some b) :
    (Tree.relocate (fun i => ids.getD i rootId) above b).placed (placeAlso place ids ids') =
      Tree.relocate (fun i => ids'.getD i rootId) (above.map place) b := by
  have hchildren : (b.children.map fun i => ids.getD i rootId).map (placeAlso place ids ids') =
      b.children.map fun i => ids'.getD i rootId := by
    rw [List.map_map]
    refine List.map_congr_left fun c hc => ?_
    obtain ⟨d, hd, -⟩ := hg.tree.child_live hb hc
    exact hg.placeAlso_new (Tree.lt_of_look hd)
  have hparent : (Tree.relocate (fun i => ids.getD i rootId) above b).parent.map
      (placeAlso place ids ids') =
        (Tree.relocate (fun i => ids'.getD i rootId) (above.map place) b).parent := by
    rw [Tree.relocate, Tree.relocate]
    cases hp : b.parent with
    | some q =>
      obtain ⟨d, hd⟩ := hg.tree.parent_live i b q hb hp
      exact congrArg some (hg.placeAlso_new (Tree.lt_of_look hd))
    | none =>
      cases habove : above with
      | none => rfl
      | some p => exact congrArg some (hg.placeAlso_of_live (hg.above_live p habove))
  rw [Block.placed, hparent]
  exact congrArg (fun cs => { Tree.relocate (fun i => ids'.getD i rootId) (above.map place) b with
    children := cs }) hchildren

theorem cases {x : BlockId} {b : Block} (hx : v.get? x = some b) :
    (∃ i c, f.look i = some c ∧ ids.getD i rootId = x ∧
      b = Tree.relocate (fun i => ids.getD i rootId) above c) ∨ x ∉ ids ∧ t.get? x = some b := by
  by_cases hm : x ∈ ids
  · obtain ⟨i, hi, rfl⟩ := Tree.exists_getD_of_mem hm
    have hi' : i < f.length := hg.length ▸ hi
    have hlook : f.look i = some f[i] := List.getElem?_eq_getElem hi'
    rw [hg.placed i _ hlook, Option.some.injEq] at hx
    exact .inl ⟨i, _, hlook, rfl, hx.symm⟩
  · exact .inr ⟨hm, (hg.rest x hm).symm.trans hx⟩

theorem not_mem_of_live {x : BlockId} (hx : t.Live x) (hm : x ∉ ids) : place x ∉ ids' := by
  intro hm'
  obtain ⟨i, hi, he⟩ := Tree.exists_getD_of_mem hm'
  have hi' : i < f.length := hg.arena.length ▸ hi
  rw [← (hg.paired i x hi' hx).mpr he] at hm
  exact hm (Tree.getD_mem (hg.length ▸ hi'))

theorem live_new {i : Nat} (hi : i < f.length) : v.Live (ids.getD i rootId) :=
  ⟨_, hg.placed i f[i] (List.getElem?_eq_getElem hi)⟩

theorem stores (h : a.Stores t place) (hs : t.Sound) : u.Stores v (placeAlso place ids ids') where
  orderly := hg.arena.orderly
  root := (hg.placeAlso_of_live hs.live_root).trans h.root
  block := by
    intro x b hb
    rcases hg.cases hb with ⟨i, c, hc, rfl, rfl⟩ | ⟨hm, hx⟩
    · rw [hg.placeAlso_new (Tree.lt_of_look hc), hg.arena.placed i c hc, hg.relocate_placed hc]
    · -- What an old block refers to was there before.
      have hsame : b.placed (placeAlso place ids ids') = b.placed place :=
        Block.placed_congr
          (fun c hc => by
            obtain ⟨d, hd, -⟩ := hs.tree.child_live hx hc
            exact hg.placeAlso_of_live ⟨d, hd⟩)
          fun p hp => hg.placeAlso_of_live (hs.tree.parent_live x b p hx hp)
      rw [hg.placeAlso_of_live ⟨b, hx⟩, hg.arena.rest _ (hg.not_mem_of_live ⟨b, hx⟩ hm),
        h.block x b hx, hsame]
  inj := by
    rintro x y ⟨b, hb⟩ ⟨c, hc⟩ he
    rcases hg.cases hb with ⟨i, d, hd, rfl, -⟩ | ⟨hx, hlive⟩ <;>
      rcases hg.cases hc with ⟨j, e, he', rfl, -⟩ | ⟨hy, hlive'⟩
    · have hi := Tree.lt_of_look hd
      have hj := Tree.lt_of_look he'
      rw [hg.placeAlso_new hi, hg.placeAlso_new hj] at he
      rw [Tree.getD_inj hg.arena.nodup (hg.arena.length.symm ▸ hi) (hg.arena.length.symm ▸ hj) he]
    · rw [hg.placeAlso_new (Tree.lt_of_look hd), hg.placeAlso_of_live ⟨c, hlive'⟩] at he
      exact (hg.paired i y (Tree.lt_of_look hd) ⟨c, hlive'⟩).mpr he
    · rw [hg.placeAlso_of_live ⟨b, hlive⟩, hg.placeAlso_new (Tree.lt_of_look he')] at he
      exact ((hg.paired j x (Tree.lt_of_look he') ⟨b, hlive⟩).mpr he.symm).symm
    · rw [hg.placeAlso_of_live ⟨b, hlive⟩, hg.placeAlso_of_live ⟨c, hlive'⟩] at he
      exact h.inj x y ⟨b, hlive⟩ ⟨c, hlive'⟩ he
  onto := by
    rintro y ⟨c, hc⟩
    by_cases hm : y ∈ ids'
    · obtain ⟨i, hi, rfl⟩ := Tree.exists_getD_of_mem hm
      have hi' : i < f.length := hg.arena.length ▸ hi
      exact ⟨_, hg.live_new hi', hg.placeAlso_new hi'⟩
    · rw [hg.arena.rest y hm] at hc
      obtain ⟨x, hx, rfl⟩ := h.onto y ⟨c, hc⟩
      have hout : x ∉ ids := by
        intro hin
        obtain ⟨i, hi, he⟩ := Tree.exists_getD_of_mem hin
        have hi' : i < f.length := hg.length ▸ hi
        rw [← (hg.paired i x hi' hx).mp he] at hm
        exact hm (Tree.getD_mem (hg.arena.length.symm ▸ hi'))
      refine ⟨x, ?_, hg.placeAlso_of_live hx⟩
      rw [Tree.Live, hg.rest x hout]
      exact hx
  size := hg.size.symm
  calls := by
    rw [hg.arena.calls, hg.calls]
    exact h.calls

end GraftedAlike

theorem Stores.length_of_grafted (h : a.Stores t place) (hs : t.Sound) {ids : List BlockId}
    {new : Nat} {above : Option BlockId} (hu : Grafted a u ids new above f) :
    u.slots.length = max t.slots.length (t.liveCount + new) := by
  have hcount := h.orderly.liveCount_add_free
  rw [h.liveCount_eq hs, h.size] at hcount
  rw [hu.size, h.size]
  omega

theorem Grafted.withParent {ids : List BlockId} {new : Nat} (hu : Grafted a u ids new none f)
    (hf : IsTree f.look 0) (p : BlockId) :
    Grafted a (u.modify (ids.headD rootId) fun b => { b with parent := some p }) ids new (some p)
      f := by
  obtain ⟨top, htop, hnone⟩ := hf.top
  have hpos := Tree.lt_of_look htop
  have hhead : ids.headD rootId = ids.getD 0 rootId := by
    cases ids <;> rfl
  have hlen := hu.length
  refine ⟨hu.orderly.modify _ fun _ => rfl, hlen, hu.nodup, fun i b hb => ?_, fun x hx => ?_,
    (u.length_modify _ _).trans hu.size, hu.calls⟩
  · rw [get?_modify, hhead]
    by_cases hi : i = 0
    · subst hi
      rw [htop, Option.some.injEq] at hb
      rw [if_pos rfl, hu.placed 0 top htop, ← hb, Option.map_some, Tree.relocate, Tree.relocate,
        hnone]
    · have hne : ids.getD i rootId ≠ ids.getD 0 rootId := fun he => hi
        (Tree.getD_inj hu.nodup (hlen.symm ▸ Tree.lt_of_look hb) (hlen.symm ▸ hpos) he)
      rw [if_neg hne, hu.placed i b hb, Tree.relocate, Tree.relocate]
      cases hp : b.parent with
      | some q => rfl
      | none => exact absurd (hf.eq_root_of_orphan hb hp) hi
  · have hne : x ≠ ids.headD rootId := fun he =>
      hx (he ▸ hhead ▸ Tree.getD_mem (hlen.symm ▸ hpos))
    rw [get?_modify, if_neg hne]
    exact hu.rest x hx

theorem Stores.graftUnder (h : a.Stores t place) (hs : t.Sound) {d : Dialect} {p : BlockId}
    {placeholder : Text} (hv : (TreeEdit.graftUnder d p placeholder f).Valid t) :
    ∃ place', (a.graftUnder d (place p) placeholder f).Stores
      ((TreeEdit.graftUnder d p placeholder f).apply t) place' := by
  obtain ⟨hp, ⟨top, hr⟩, hn⟩ := hv
  have hfree : ∀ b ∈ f, ∀ y c, a.get? y = some c → c.name ≠ b.name := by
    intro b hb y c hc he
    obtain ⟨x, e, hx, -, rfl⟩ := h.of_get? hc
    exact List.not_mem_nil (hn.mem_leaving hx hb he)
  obtain ⟨ids', hu, hid, hempty⟩ := grafted_new h.orderly hn.nodup hfree
  have hparent := hu.withParent hr.tree (place p)
  have hlen := t.length_allocate f.length
  have hnodup := t.nodup_allocate f.length
  have hvacant : ∀ i, i < f.length → t.get? ((t.allocate f.length).getD i rootId) = none :=
    fun i hi => Tree.get?_of_mem_allocate (Tree.getD_mem (hlen.symm ▸ hi))
  have hg : GraftedAlike a _ t (t.graftUnder p f).2 place (t.allocate f.length) ids' f.length
      (some p) f :=
    { arena := hparent
      tree := hr.tree
      length := hlen
      nodup := hnodup
      placed := fun i b hb =>
        Tree.get?_graftAt_of_mem (t.fits_allocate _) hnodup hlen hb
      rest := fun x hx => Tree.get?_graftAt_of_not_mem (t.fits_allocate _) hlen hx
      above_live := fun q hq => Option.some.inj hq ▸ hp
      paired := fun i x hi hx =>
        h.paired_of_empty (hvacant i hi) (hempty _ (Tree.getD_mem (hu.length.symm ▸ hi))) hx
      size := (t.length_graftUnder p f).trans (h.length_of_grafted hs hparent).symm
      calls := Tree.calls_graftAt _ _ _ _ }
  obtain ⟨top', htop, -⟩ := hr.tree.top
  have hpos := Tree.lt_of_look htop
  have hplace := hg.placeAlso_of_live hp
  have hnew : placeAlso place (t.allocate f.length) ids' (t.graftUnder p f).1 =
      (a.graft f none).1 := by
    have hfirst : (t.graftUnder p f).1 = (t.allocate f.length).getD 0 rootId := by
      rw [Tree.graftUnder]
      cases t.allocate f.length <;> rfl
    rw [hfirst, hg.placeAlso_new hpos, hid]
    cases ids' <;> rfl
  have hlive : (t.graftUnder p f).2.Live p := by
    obtain ⟨b, hb⟩ := hp
    refine ⟨b, (hg.rest p fun hm => ?_).trans hb⟩
    rw [Tree.get?_of_mem_allocate hm] at hb
    cases hb
  have hadopt := (hg.stores h hs).modify hlive
    (g := Block.adopt d placeholder (Template.topName f) (t.graftUnder p f).1)
    (k := Block.adopt d placeholder (Template.topName f) (a.graft f none).1) (fun b _ => by
      rw [Block.adopt, Block.adopt, Block.placed, Block.placed, List.map_append,
        List.map_singleton, hnew]) fun _ => rfl
  rw [hplace, ← hid] at hadopt
  exact ⟨_, hadopt⟩

theorem Stores.graftOver (h : a.Stores t place) (hs : t.Sound)
    (hv : (TreeEdit.graftOver id f).Valid t) :
    ∃ place', (a.graft f (some (place id))).2.Stores (t.graftOver id f) place' := by
  obtain ⟨leaf, hleaf, hbare, hr, hn⟩ := hv
  have hleaf' := h.block id leaf hleaf
  have hfree : ∀ b ∈ f, ∀ y c, a.get? y = some c → c.name = b.name → y = place id := by
    intro b hb y c hc he
    obtain ⟨x, e, hx, rfl, rfl⟩ := h.of_get? hc
    have hname := List.mem_singleton.mp (hn.mem_leaving hx hb he)
    exact congrArg place (hs.distinct x id e leaf hx hleaf (he.trans hname))
  obtain ⟨ids', hu, hempty⟩ := grafted_over h.orderly hn.nodup hleaf' hr.head_name hfree
  obtain ⟨top, htop, -⟩ := hr.tree.top
  have hpos := Tree.lt_of_look htop
  have hplant := Tree.plant_graftOver hr.tree hleaf hbare
  have hlen : (id :: t.allocate (f.length - 1)).length = f.length := by
    rw [List.length_cons, Tree.length_allocate]
    omega
  have hnodup : (id :: t.allocate (f.length - 1)).Nodup := by
    refine List.nodup_cons.mpr ⟨fun hm => ?_, t.nodup_allocate _⟩
    rw [Tree.get?_of_mem_allocate hm] at hleaf
    cases hleaf
  have hg : GraftedAlike a _ t (t.graftOver id f) place (id :: t.allocate (f.length - 1))
      (place id :: ids') (f.length - 1) leaf.parent f :=
    { arena := hu
      tree := hr.tree
      length := hlen
      nodup := hnodup
      placed := hplant.placed
      rest := fun x hx => hplant.rest x fun i b hb he =>
        hx (he ▸ Tree.getD_mem (hlen.symm ▸ Tree.lt_of_look hb))
      above_live := fun p hp => hs.tree.parent_live id leaf p hleaf hp
      paired := by
        intro i x hi hx
        cases i with
        | zero => exact ⟨congrArg place, h.inj id x ⟨leaf, hleaf⟩ hx⟩
        | succ i =>
          -- All slots other than that of the block were empty.
          have hlt : i < (t.allocate (f.length - 1)).length := by
            rw [Tree.length_allocate]
            omega
          have hlt' : i < ids'.length := by
            have := hu.length
            rw [List.length_cons] at this
            omega
          rw [List.getD_cons_succ, List.getD_cons_succ]
          exact h.paired_of_empty (Tree.get?_of_mem_allocate (Tree.getD_mem hlt))
            (hempty _ (Tree.getD_mem hlt')) hx
      size := (Tree.length_graftOver hleaf (List.ne_nil_of_length_pos hpos)).trans
        (h.length_of_grafted hs hu).symm
      calls := Tree.calls_graftAt _ _ _ _ }
  exact ⟨_, hg.stores h hs⟩

/-- Whatever is done to the tree, the arena to which it is done as well stores what is left. -/
theorem Mirrors.apply (h : a.Mirrors t) (hs : t.Sound) {edit : TreeEdit} (hv : edit.Valid t) :
    (a.apply t edit).Mirrors (edit.apply t) := by
  obtain ⟨place, h⟩ := h
  cases edit with
  | intern cs => exact ⟨place, h.internAll cs⟩
  | releaseCalls => exact ⟨place, h.releaseCalls hs⟩
  | graftUnder d p placeholder f =>
    obtain ⟨b, hb⟩ := hv.1
    rw [Arena.apply, h.slotOf?_eq hb]
    exact h.graftUnder hs hv
  | prune id =>
    obtain ⟨b, hb⟩ := hv
    rw [Arena.apply, h.slotOf?_eq hb]
    exact ⟨place, h.removeDescendants hs ⟨b, hb⟩⟩
  | graftOver id f =>
    have hthere := hv
    obtain ⟨b, hb, -⟩ := hthere
    rw [Arena.apply, h.slotOf?_eq hb]
    exact h.graftOver hs hv
  | dissolve id token =>
    obtain ⟨b, p, hb, hp⟩ := hv
    rw [Arena.apply, h.slotOf?_eq hb]
    exact ⟨place, h.inline hs hb hp token⟩

theorem Mirrors.run (h : a.Mirrors t) (hs : t.Sound) {v : Tree} {edits : List TreeEdit}
    (he : Tree.Edited t edits v) : (a.run t edits).Mirrors v := by
  induction he generalizing a with
  | nil => exact h
  | cons hv _ ih => exact ih (h.apply hs hv) (TreeEdit.sound_apply hs hv)

end Arena

end BlockTemplate
