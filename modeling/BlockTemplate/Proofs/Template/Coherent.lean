import BlockTemplate.Proofs.Template.Course
import BlockTemplate.Proofs.Tree.Stored

/-!
# What holds of a template at any time

The edits behind the operations on a template are made to an arena, whose slots, index, stack of
empty slots and interned calls are each brought up to date on their own. Whatever is asked of the
template, and whatever fails on the way, these agree, and nothing is kept for a block that is gone.
-/

namespace BlockTemplate

open Lookup (Distinct)

namespace Arena

def Live (a : Arena) (id : BlockId) : Prop := ∃ b, a.get? id = some b

/--
The root is in its slot. The index leads from the names of the blocks to their slots, and the stack
has each empty slot once. Children and parents agree, and a walk from the root comes to every block
once. The calls that blocks list have their numbers in the index, and free numbers are neither listed
nor in the index.
-/
structure Coherent (a : Arena) : Prop where
  root : ∃ b, a.get? rootId = some b ∧ b.name = rootName ∧ b.parent = none
  index : ∀ name id, a.names.get? name = some id ↔ ∃ b, a.get? id = some b ∧ b.name = name
  names_unique : ∀ i j b c, a.get? i = some b → a.get? j = some c → b.name = c.name → i = j
  free_nodup : a.free.Nodup
  free_iff : ∀ id, id ∈ a.free ↔ a.slots[id]? = some none
  child_iff : ∀ p c b d, a.get? p = some b → a.get? c = some d →
    (c ∈ b.children ↔ d.parent = some p)
  children_live : ∀ p b, a.get? p = some b → ∀ c ∈ b.children, a.Live c
  parent_live : ∀ c d p, a.get? c = some d → d.parent = some p → a.Live p
  children_nodup : ∀ p b, a.get? p = some b → b.children.Nodup
  reached : ∀ id b, a.get? id = some b ↔ (id, b) ∈ a.blocks.preorder rootId
  reached_once : ((a.blocks.preorder rootId).map (·.1)).Nodup
  calls_listed : ∀ id b, a.get? id = some b → ∀ c ∈ b.calls,
    ∃ call, a.calls.calls[c]? = some call ∧ a.calls.ids.get? call = some c
  calls_indexed : ∀ call c, a.calls.ids.get? call = some c → a.calls.calls[c]? = some call
  free_calls_nodup : a.calls.free.Nodup
  free_calls : ∀ c ∈ a.calls.free, c < a.calls.calls.length ∧
    (∀ id b, a.get? id = some b → c ∉ b.calls) ∧ ∀ call, a.calls.ids.get? call ≠ some c

variable {a : Arena} {t : Tree} {place : BlockId → BlockId}

namespace Stores

variable (h : a.Stores t place) (hs : t.Sound)
include h

theorem live {id : BlockId} (hid : t.Live id) : a.Live (place id) := by
  obtain ⟨b, hb⟩ := hid
  exact ⟨_, h.block id b hb⟩

include hs

theorem known {y : BlockId} {b : Block} (hy : a.get? y = some b) {c : CallId} (hc : c ∈ b.calls) :
    ∃ call, t.calls.get? c = some call := by
  obtain ⟨x, d, hd, -, rfl⟩ := h.of_get? hy
  exact hs.known x d hd c hc

theorem root_block : ∃ b, a.get? rootId = some b ∧ b.name = rootName ∧ b.parent = none := by
  obtain ⟨b, hb, hn⟩ := hs.root_name
  obtain ⟨c, hc, hp⟩ := hs.tree.top
  rw [hb, Option.some.injEq] at hc
  subst hc
  refine ⟨b.placed place, h.root ▸ h.block rootId b hb, hn, ?_⟩
  rw [Block.placed, hp]
  rfl

theorem coherent : a.Coherent := by
  have htree : Lookup.IsTree a.blocks.get? rootId := h.isTree hs
  obtain ⟨r, hr, hname, hnone⟩ := h.root_block hs
  have hr' : a.blocks.get? rootId = some r := hr
  refine
    { root := ⟨r, hr, hname, hnone⟩
      index := h.orderly.index
      names_unique := h.orderly.names_unique
      free_nodup := h.orderly.nodup
      free_iff := h.orderly.empty_iff
      child_iff := fun p c b d hp hc => ?_
      children_live := fun p b hp c hc => ?_
      parent_live := htree.parent_live
      children_nodup := htree.children_nodup
      reached := fun id b => ?_
      reached_once := Tree.nodup_preorder htree hr'
      calls_listed := fun id b hb c hc => ?_
      calls_indexed := fun call c hc => h.calls.call c call ((h.calls.ids call c).mp hc)
      free_calls_nodup := h.calls.free ▸ t.calls.nodup_vacant
      free_calls := fun c hc => ?_ }
  · rw [htree.child_iff p b c hp]
    refine ⟨?_, fun hd => ⟨d, hc, hd⟩⟩
    rintro ⟨e, he, hep⟩
    rw [← Option.some.inj (he.symm.trans hc), hep]
  · obtain ⟨d, hd, -⟩ := htree.child_live hp hc
    exact ⟨d, hd⟩
  · rw [Tree.mem_preorder_iff htree hr']
    exact ⟨fun hb => ⟨htree.reached id b hb, hb⟩, fun hb => hb.2⟩
  · obtain ⟨call, hcall⟩ := h.known hs hb hc
    exact ⟨call, h.calls.call c call hcall, (h.calls.ids call c).mpr hcall⟩
  · rw [h.calls.free] at hc
    obtain ⟨hlt, hvacant⟩ := CallTable.mem_vacant_iff.mp hc
    refine ⟨h.calls.size ▸ hlt, fun id b hb hm => ?_, fun call hcall => ?_⟩
    · obtain ⟨call, hcall⟩ := h.known hs hb hm
      rw [hvacant] at hcall
      cases hcall
    · rw [h.calls.ids, hvacant] at hcall
      cases hcall

end Stores

end Arena

namespace Session

/--
Whatever is asked of a new template, and whatever the files hold meanwhile, its blocks are what a
course of edits has made, and the arena to which these edits were made is coherent. The arena stores
the blocks of the template, among them the current one and all that an output or a mark is kept for.
-/
theorem coherent_run (e : Engine) (fs : Files) (ops : List Operation) :
    let t := ((start fs).run e ops).template
    let edits := (start fs).course e [] ops
    let a := Arena.start.run .empty edits
    Tree.Edited .empty edits t.tree ∧ a.Coherent ∧
    ∃ place, a.Stores t.tree place ∧ a.Live (place t.current) ∧
      (∀ id, t.state.outputs.contains id = true → a.Live (place id)) ∧
      ∀ id, t.state.marks.contains id = true → a.Live (place id) := by
  have hsound := sound_run e (s := start fs) Template.sound_empty ops
  have hedited := edited_run (e := e) (s := start fs) Template.sound_empty (.nil .empty) ops
  obtain ⟨place, hstores⟩ := Arena.mirrors_start.run Tree.sound_empty hedited
  refine ⟨hedited, hstores.coherent hsound.tree, place, hstores, hstores.live hsound.current,
    fun id hid => ?_, fun id hid => ?_⟩
  · obtain ⟨text, ht⟩ := Option.isSome_iff_exists.mp hid
    exact hstores.live (hsound.state.outputs id text ht)
  · obtain ⟨m, hm⟩ := Option.isSome_iff_exists.mp hid
    exact hstores.live (hsound.state.marks id m hm)

end Session

end BlockTemplate
