import BlockTemplate.Proofs.Tree.Edit
import BlockTemplate.Proofs.Tree.Room
import BlockTemplate.Tree.Arena

/-!
# What the operations of an arena keep

The index has the names of the blocks and no others, and the stack has every empty slot once. Between
the time that slots are taken off the stack and the time that they are filled they are to spare, so
each operation is told with the slots to spare before and after it.
-/

namespace BlockTemplate.Arena

open Lookup (Reach IsTree)

variable {a : Arena} {spare : List BlockId} {id : BlockId} {b c : Block}

/-- The index and the stack are up to date, apart from the slots to spare. -/
structure Orderly (a : Arena) (spare : List BlockId) : Prop where
  index : ∀ name id, a.names.get? name = some id ↔ ∃ b, a.get? id = some b ∧ b.name = name
  nodup : (spare ++ a.free).Nodup
  empty_iff : ∀ id, id ∈ spare ++ a.free ↔ a.slots[id]? = some none

theorem get?_eq (a : Arena) (id : BlockId) : a.get? id = a.slots[id]?.join := rfl

theorem get?_eq_some_iff : a.get? id = some b ↔ a.slots[id]? = some (some b) :=
  Tree.get?_eq_some_iff

theorem lt_of_get? (h : a.get? id = some b) : (id : Nat) < a.slots.length :=
  Tree.lt_of_get? (t := a.blocks) h

theorem get?_modify (a : Arena) (id : BlockId) (f : Block → Block) (x : BlockId) :
    (a.modify id f).get? x = if x = id then (a.get? x).map f else a.get? x :=
  Tree.get?_modify a.blocks id f x

theorem length_modify (a : Arena) (id : BlockId) (f : Block → Block) :
    (a.modify id f).slots.length = a.slots.length := List.length_modify ..

theorem empty_modify_iff (a : Arena) (id : BlockId) (f : Block → Block) (x : BlockId) :
    (a.modify id f).slots[x]? = some none ↔ a.slots[x]? = some none := by
  have hslot : (a.modify id f).slots[x]? =
      (fun slot => if id = x then slot.map f else slot) <$> a.slots[x]? := List.getElem?_modify ..
  rw [hslot]
  by_cases hx : id = x
  · cases a.slots[x]? with
    | none => simp
    | some slot => cases slot <;> simp [hx]
  · simp [hx]

theorem get?_put (a : Arena) {id : BlockId} (b : Block) (hlt : id < a.slots.length) (x : BlockId) :
    (a.put id b).get? x = if x = id then some b else a.get? x := by
  rw [get?_eq, put, get?_eq]
  dsimp only
  rw [List.getElem?_set]
  by_cases hx : id = x
  · simp [hx, hx ▸ hlt]
  · have hx' : x ≠ id := fun he => hx he.symm
    simp [hx, hx']

theorem get?_remove (hb : a.get? id = some b) (x : BlockId) :
    (a.remove id).get? x = if x = id then none else a.get? x := by
  rw [remove, hb, get?_eq, get?_eq]
  dsimp only
  rw [List.getElem?_set]
  by_cases hx : id = x
  · simp [hx, hx ▸ lt_of_get? hb]
  · have hx' : x ≠ id := fun he => hx he.symm
    simp [hx, hx']

theorem get?_alloc (a : Arena) (x : BlockId) : a.alloc.2.get? x = a.get? x := by
  rw [alloc]
  cases a.free with
  | cons id free => rfl
  | nil =>
    rw [get?_eq, get?_eq]
    rcases Nat.lt_trichotomy x a.slots.length with hx | hx | hx
    · rw [List.getElem?_append_left hx]
    · rw [hx, List.getElem?_concat_length, List.getElem?_eq_none (Nat.le_refl _)]
      rfl
    · rw [List.getElem?_eq_none (Nat.le_of_lt hx), List.getElem?_eq_none]
      rw [List.length_append, List.length_singleton]
      exact hx

namespace Orderly

theorem names_unique (h : a.Orderly spare) : Lookup.Distinct a.get? := by
  intro i j b c hi hj hn
  have hfirst := (h.index b.name i).mpr ⟨b, hi, rfl⟩
  have hsecond := (h.index b.name j).mpr ⟨c, hj, hn.symm⟩
  exact Option.some.inj (hfirst.symm.trans hsecond)

theorem of_perm {rest : List BlockId} (h : a.Orderly spare) (hp : spare.Perm rest) :
    a.Orderly rest where
  index := h.index
  nodup := (hp.append_right a.free).nodup_iff.mp h.nodup
  empty_iff := fun id => ((hp.append_right a.free).mem_iff.symm).trans (h.empty_iff id)

theorem get?_of_mem (h : a.Orderly spare) (hid : id ∈ spare ++ a.free) : a.get? id = none :=
  (get?_eq a id).trans (congrArg Option.join ((h.empty_iff id).mp hid))

theorem modify (h : a.Orderly spare) (id : BlockId) {f : Block → Block}
    (hf : ∀ b, (f b).name = b.name) : (a.modify id f).Orderly spare where
  index := by
    intro name x
    have hx : (∃ b, (a.modify id f).get? x = some b ∧ b.name = name) ↔
        ∃ b, a.get? x = some b ∧ b.name = name := by
      rw [get?_modify]
      split
      · simp only [Option.map_eq_some_iff]
        constructor
        · rintro ⟨_, ⟨b, hb, rfl⟩, hn⟩
          exact ⟨b, hb, (hf b).symm.trans hn⟩
        · rintro ⟨b, hb, hn⟩
          exact ⟨f b, ⟨b, hb, rfl⟩, (hf b).trans hn⟩
      · exact Iff.rfl
    rw [hx]
    exact h.index name x
  nodup := h.nodup
  empty_iff := fun x => (h.empty_iff x).trans (a.empty_modify_iff id f x).symm

theorem remove (h : a.Orderly spare) (hb : a.get? id = some b) :
    (a.remove id).Orderly spare := by
  have hget := get?_remove hb
  have hnot : id ∉ spare ++ a.free := by
    rw [h.empty_iff, get?_eq_some_iff.mp hb]
    simp
  rw [Arena.remove, hb] at hget ⊢
  refine ⟨?_, List.nodup_middle.mpr (List.nodup_cons.mpr ⟨hnot, h.nodup⟩), ?_⟩
  · intro name x
    simp only [hget, Option.ite_none_left_eq_some, and_assoc, exists_and_left, ← h.index]
    by_cases hn : name = b.name
    · subst hn
      rw [Dict.get?_erase_self, (h.index b.name id).mpr ⟨b, hb, rfl⟩]
      simp [eq_comm]
    · rw [Dict.get?_erase_ne _ hn]
      refine ⟨fun hx => ⟨?_, hx⟩, And.right⟩
      rintro rfl
      obtain ⟨e, he, hen⟩ := (h.index name x).mp hx
      rw [hb, Option.some.injEq] at he
      exact hn (hen.symm.trans (congrArg Block.name he.symm))
  · intro x
    dsimp only
    rw [List.perm_middle.mem_iff, List.mem_cons, h.empty_iff, List.getElem?_set]
    by_cases hx : id = x
    · simp [hx, hx ▸ lt_of_get? hb]
    · have hx' : x ≠ id := fun he => hx he.symm
      simp [hx, hx']

theorem alloc (h : a.Orderly spare) : a.alloc.2.Orderly (a.alloc.1 :: spare) := by
  have hget := get?_alloc a
  rw [Arena.alloc] at hget ⊢
  cases hfree : a.free with
  | cons id free =>
    have hperm : (id :: spare ++ free).Perm (spare ++ a.free) := by
      rw [hfree]
      exact List.perm_middle.symm
    exact ⟨h.index, hperm.nodup_iff.mpr h.nodup, fun x => hperm.mem_iff.trans (h.empty_iff x)⟩
  | nil =>
    rw [hfree] at hget
    have hspare : spare ++ a.free = spare := by rw [hfree, List.append_nil]
    have hold := h.empty_iff
    have hnodup := h.nodup
    rw [hspare] at hold hnodup
    have hnot : a.slots.length ∉ spare := by
      rw [hold, List.getElem?_eq_none (Nat.le_refl _)]
      simp
    refine ⟨?_, ?_, ?_⟩
    · intro name x
      rw [hget]
      exact h.index name x
    · rw [List.append_nil]
      exact List.nodup_cons.mpr ⟨hnot, hnodup⟩
    · intro x
      dsimp only
      rw [List.append_nil, List.mem_cons, hold]
      rcases Nat.lt_trichotomy x a.slots.length with hx | hx | hx
      · rw [List.getElem?_append_left hx]
        exact or_iff_right (Nat.ne_of_lt hx)
      · simp [hx]
      · have hlast : (a.slots ++ [none]).length ≤ x := by
          rw [List.length_append, List.length_singleton]
          exact hx
        rw [List.getElem?_eq_none (Nat.le_of_lt hx), List.getElem?_eq_none hlast]
        simp [Nat.ne_of_gt hx]

theorem index_put (h : a.Orderly spare) (hlt : (id : Nat) < a.slots.length)
    (hn : ∀ x e, x ≠ id → a.get? x = some e → e.name ≠ b.name)
    (hold : ∀ e, a.get? id = some e → e.name = b.name) (name : Text) (x : BlockId) :
    (a.put id b).names.get? name = some x ↔ ∃ e, (a.put id b).get? x = some e ∧ e.name = name := by
  rw [a.get?_put b hlt, Arena.put, Dict.get?_insert]
  by_cases hx : x = id
  · subst hx
    by_cases hname : name = b.name
    · simp [hname]
    · have hnone : a.names.get? name ≠ some x := fun he => by
        obtain ⟨e, he, hen⟩ := (h.index name x).mp he
        exact hname (hen.symm.trans (hold e he))
      have hname' : b.name ≠ name := fun he => hname he.symm
      simp [hname, hname', hnone]
  · rw [if_neg hx]
    by_cases hname : name = b.name
    · subst hname
      have hx' : id ≠ x := fun he => hx he.symm
      simp only [if_pos, Option.some.injEq, hx', false_iff, not_exists, not_and]
      exact fun e he => hn x e hx he
    · rw [if_neg hname]
      exact h.index name x

theorem put (h : a.Orderly (id :: spare)) (hn : ∀ x e, a.get? x = some e → e.name ≠ b.name) :
    (a.put id b).Orderly spare := by
  have hlt : (id : Nat) < a.slots.length :=
    (List.getElem?_eq_some_iff.mp ((h.empty_iff id).mp List.mem_cons_self)).1
  have hnone : a.get? id = none := h.get?_of_mem List.mem_cons_self
  obtain ⟨hnot, hnodup⟩ := List.nodup_cons.mp h.nodup
  refine ⟨h.index_put hlt (fun x e _ => hn x e) (by simp [hnone]), hnodup, fun x => ?_⟩
  rw [Arena.put]
  dsimp only
  rw [List.getElem?_set]
  by_cases hx : id = x
  · rw [if_pos hx, if_pos hlt, ← hx]
    exact iff_of_false hnot (by simp)
  · have hx' : x ≠ id := fun he => hx he.symm
    rw [if_neg hx, ← h.empty_iff, List.cons_append, List.mem_cons]
    exact (or_iff_right hx').symm

theorem put_over (h : a.Orderly spare) (hc : a.get? id = some c) (hn : c.name = b.name) :
    (a.put id b).Orderly spare := by
  have hlt := lt_of_get? hc
  refine ⟨h.index_put hlt (fun x e hx he hname => hx ?_) (fun e he => ?_), h.nodup, fun x => ?_⟩
  · exact h.names_unique x id e c he hc (hname.trans hn.symm)
  · rw [hc, Option.some.injEq] at he
    exact he ▸ hn
  · change x ∈ spare ++ a.free ↔ (a.slots.set id (some b))[x]? = some none
    rw [h.empty_iff, List.getElem?_set]
    by_cases hx : id = x
    · rw [if_pos hx, if_pos hlt, ← hx, get?_eq_some_iff.mp hc]
      simp
    · rw [if_neg hx]

end Orderly

structure Allots (a : Arena) (spare : List BlockId) (count : Nat) (r : List BlockId × Arena) :
    Prop where
  orderly : r.2.Orderly (r.1 ++ spare)
  length : r.1.length = count
  same : ∀ x, r.2.get? x = a.get? x
  size : r.2.slots.length = a.slots.length + (count - a.free.length)
  calls : r.2.calls = a.calls

namespace Allots

variable {count : Nat} {r : List BlockId × Arena} (h : Allots a [] count r)
include h

theorem to_spare : r.2.Orderly r.1 := List.append_nil r.1 ▸ h.orderly

theorem nodup : r.1.Nodup := (List.nodup_append.mp h.to_spare.nodup).1

theorem get?_of_mem (hid : id ∈ r.1) : a.get? id = none :=
  (h.same id).symm.trans (h.to_spare.get?_of_mem (List.mem_append_left _ hid))

theorem lt_of_mem (hid : id ∈ r.1) : (id : Nat) < r.2.slots.length :=
  (List.getElem?_eq_some_iff.mp ((h.to_spare.empty_iff id).mp (List.mem_append_left _ hid))).1

end Allots

theorem allots_allocAll (h : a.Orderly spare) (count : Nat) :
    Allots a spare count (allocAll count a) := by
  induction count generalizing a spare with
  | zero => exact ⟨h, rfl, fun _ => rfl, by simp [allocAll], rfl⟩
  | succ count ih =>
    have hrest := ih h.alloc
    rw [allocAll]
    refine ⟨?_, ?_, fun x => ?_, ?_, ?_⟩
    · exact hrest.orderly.of_perm List.perm_middle
    · rw [List.length_cons, hrest.length]
    · exact (hrest.same x).trans (a.get?_alloc x)
    · dsimp only
      rw [hrest.size, alloc]
      cases a.free with
      | cons id free => simp
      | nil =>
        dsimp only
        rw [List.length_append, List.length_singleton, List.length_nil]
        omega
    · dsimp only
      rw [hrest.calls, alloc]
      cases a.free <;> rfl

def putAll (a : Arena) (es : List (BlockId × Block)) : Arena :=
  es.foldl (fun a e => a.put e.1 e.2) a

theorem putAll_cons (a : Arena) (e : BlockId × Block) (es : List (BlockId × Block)) :
    a.putAll (e :: es) = (a.put e.1 e.2).putAll es := rfl

theorem length_putAll (a : Arena) (es : List (BlockId × Block)) :
    (a.putAll es).slots.length = a.slots.length := by
  induction es generalizing a with
  | nil => rfl
  | cons e es ih => rw [putAll_cons, ih, put, List.length_set]

theorem calls_putAll (a : Arena) (es : List (BlockId × Block)) :
    (a.putAll es).calls = a.calls := by
  induction es generalizing a with
  | nil => rfl
  | cons e es ih => rw [putAll_cons, ih, put]

theorem blocks_putAll {es : List (BlockId × Block)}
    (h : ∀ e ∈ es, (e.1 : Nat) < a.slots.length) :
    (a.putAll es).blocks = a.blocks.putAll es := by
  induction es generalizing a with
  | nil => rfl
  | cons e es ih =>
    have hlt : (e.1 : Nat) < a.blocks.slots.length := h e List.mem_cons_self
    have hput : (a.put e.1 e.2).blocks = a.blocks.put e.1 e.2 := by
      rw [Tree.put, if_pos hlt]
      rfl
    rw [putAll_cons, Tree.putAll_cons, ← hput]
    refine ih fun x hx => ?_
    rw [put, List.length_set]
    exact h x (List.mem_cons_of_mem e hx)

theorem Orderly.putAll {es : List (BlockId × Block)} (h : a.Orderly (es.map (·.1) ++ spare))
    (hnodup : (es.map (·.2.name)).Nodup)
    (hn : ∀ e ∈ es, ∀ x c, a.get? x = some c → c.name ≠ e.2.name) :
    (a.putAll es).Orderly spare := by
  induction es generalizing a with
  | nil => exact h
  | cons e es ih =>
    rw [List.map_cons] at h hnodup
    obtain ⟨hnot, hnodup⟩ := List.nodup_cons.mp hnodup
    have hlt : (e.1 : Nat) < a.slots.length :=
      (List.getElem?_eq_some_iff.mp ((h.empty_iff e.1).mp List.mem_cons_self)).1
    refine ih (h.put (hn e List.mem_cons_self)) hnodup fun d hd x c hc => ?_
    rw [a.get?_put e.2 hlt] at hc
    split at hc
    · cases hc
      exact fun hname => hnot (hname ▸ List.mem_map_of_mem hd)
    · exact hn d (List.mem_cons_of_mem e hd) x c hc

/-- Slots to spare are filled with the blocks of a fragment, none of which has the name of another. -/
theorem Orderly.putFragment {ids : List BlockId} (h : a.Orderly ids) {f : Fragment}
    (hlen : ids.length = f.length) (hnodup : (f.map (·.name)).Nodup)
    (hfree : ∀ b ∈ f, ∀ x c, a.get? x = some c → c.name ≠ b.name) (place : Nat → BlockId)
    (above : Option BlockId) :
    (a.putAll (ids.zip (f.map (Tree.relocate place above)))).Orderly [] := by
  have hfst : (ids.zip (f.map (Tree.relocate place above))).map (·.1) = ids :=
    Tree.fst_zip _ (by rw [List.length_map]; exact hlen)
  have hnames : (ids.zip (f.map (Tree.relocate place above))).map (·.2.name) = f.map (·.name) :=
    Tree.map_name_zip (fun _ => rfl) hlen
  refine Orderly.putAll (by rwa [hfst, List.append_nil]) (hnames ▸ hnodup) ?_
  intro e he x c hc
  obtain ⟨b, hb, heq⟩ := List.mem_map.mp (List.of_mem_zip he).2
  rw [← heq]
  exact hfree b hb x c hc

structure Grafted (a a' : Arena) (ids : List BlockId) (new : Nat) (above : Option BlockId)
    (f : Fragment) : Prop where
  orderly : a'.Orderly []
  length : ids.length = f.length
  nodup : ids.Nodup
  placed : ∀ i b, f.look i = some b → a'.get? (ids.getD i rootId) =
    some (Tree.relocate (fun i => ids.getD i rootId) above b)
  rest : ∀ x, x ∉ ids → a'.get? x = a.get? x
  size : a'.slots.length = a.slots.length + (new - a.free.length)
  calls : a'.calls = a.calls

theorem grafted_putAll {u : Arena} {ids : List BlockId} {new : Nat} {above : Option BlockId}
    {f : Fragment} (horder : (u.putAll (ids.zip
      (f.map (Tree.relocate (fun i => ids.getD i rootId) above)))).Orderly [])
    (hlen : ids.length = f.length) (hnodup : ids.Nodup)
    (hlt : ∀ id ∈ ids, (id : Nat) < u.slots.length) (hsame : ∀ x, u.get? x = a.get? x)
    (hsize : u.slots.length = a.slots.length + (new - a.free.length))
    (hcalls : u.calls = a.calls) :
    Grafted a (u.putAll (ids.zip (f.map (Tree.relocate (fun i => ids.getD i rootId) above))))
      ids new above f := by
  have hblocks : (u.putAll (ids.zip
      (f.map (Tree.relocate (fun i => ids.getD i rootId) above)))).blocks =
      u.blocks.graftAt ids above f := by
    rw [Tree.graftAt_eq]
    exact blocks_putAll fun e he => hlt e.1 (List.of_mem_zip he).1
  have hfits : Tree.Fits u.blocks.slots.length ids := by
    have hnil : Tree.Fits u.blocks.slots.length (ids ++ []) := Tree.fits_append hlt trivial
    rwa [List.append_nil] at hnil
  refine ⟨horder, hlen, hnodup, fun i b hb => ?_, fun x hx => ?_, ?_, ?_⟩
  · rw [get?, hblocks]
    exact Tree.get?_graftAt_of_mem hfits hnodup hlen hb
  · rw [get?, hblocks, Tree.get?_graftAt_of_not_mem hfits hlen hx]
    exact hsame x
  · rw [length_putAll, hsize]
  · rw [calls_putAll, hcalls]

section Graft

variable {f : Fragment} (h : a.Orderly []) (hnodup : (f.map (·.name)).Nodup)
include h hnodup

theorem grafted_new (hfree : ∀ b ∈ f, ∀ x c, a.get? x = some c → c.name ≠ b.name) :
    ∃ ids, Grafted a (a.graft f none).2 ids f.length none f ∧
      (a.graft f none).1 = ids.headD rootId ∧ ∀ id ∈ ids, a.get? id = none := by
  have hallots := allots_allocAll h f.length
  rw [graft, slotsFor]
  generalize allocAll f.length a = r at hallots
  obtain ⟨ids, u⟩ := r
  have horder := hallots.to_spare.putFragment hallots.length hnodup
    (fun b hb x c hc => hfree b hb x c ((hallots.same x).symm.trans hc))
    (fun i => ids.getD i rootId) none
  exact ⟨ids, grafted_putAll horder hallots.length hallots.nodup (fun _ => hallots.lt_of_mem)
    hallots.same hallots.size hallots.calls, rfl, fun _ => hallots.get?_of_mem⟩

theorem grafted_over {slot : BlockId} {leaf : Block} (hleaf : a.get? slot = some leaf)
    (htop : ∃ b, f.head? = some b ∧ b.name = leaf.name)
    (hfree : ∀ b ∈ f, ∀ x c, a.get? x = some c → c.name = b.name → x = slot) :
    ∃ ids, Grafted a (a.graft f (some slot)).2 (slot :: ids) (f.length - 1) leaf.parent f ∧
      ∀ id ∈ ids, a.get? id = none := by
  obtain ⟨b, hb, hname⟩ := htop
  obtain ⟨rest, rfl⟩ := List.head?_eq_some_iff.mp hb
  have hallots := allots_allocAll h rest.length
  rw [graft, slotsFor, List.length_cons, Nat.add_sub_cancel]
  generalize allocAll rest.length a = r at hallots
  obtain ⟨ids, u⟩ := r
  have hslot : u.get? slot = some leaf := (hallots.same slot).trans hleaf
  have hids : (slot :: ids).Nodup := by
    refine List.nodup_cons.mpr ⟨fun hm => ?_, hallots.nodup⟩
    rw [hallots.get?_of_mem hm] at hleaf
    cases hleaf
  have hlt : ∀ id ∈ slot :: ids, (id : Nat) < u.slots.length := by
    intro id hid
    rcases List.mem_cons.mp hid with rfl | hid
    · exact lt_of_get? hslot
    · exact hallots.lt_of_mem hid
  have habove : (u.get? slot).bind (·.parent) = leaf.parent := by
    rw [hslot]
    rfl
  let place := fun i => (slot :: ids).getD i rootId
  obtain ⟨hnot, hrest⟩ := List.nodup_cons.mp hnodup
  -- The top block goes over one of its name, the others into slots to spare.
  have hput : (u.put slot (Tree.relocate place leaf.parent b)).Orderly ids :=
    hallots.to_spare.put_over hslot hname.symm
  have horder := hput.putFragment hallots.length hrest (fun g hg x c hc hcn => by
    rw [u.get?_put _ (lt_of_get? hslot)] at hc
    split at hc
    · cases hc
      exact hnot (List.mem_map.mpr ⟨g, hg, hcn.symm⟩)
    · rename_i hx
      exact hx (hfree g (List.mem_cons_of_mem b hg) x c ((hallots.same x).symm.trans hc) hcn))
    place leaf.parent
  refine ⟨ids, ?_, fun _ => hallots.get?_of_mem⟩
  dsimp only
  rw [Option.bind_some, habove]
  exact grafted_putAll horder (congrArg (· + 1) hallots.length) hids hlt hallots.same hallots.size
    hallots.calls

end Graft

theorem length_remove (a : Arena) (id : BlockId) : (a.remove id).slots.length = a.slots.length := by
  rw [remove]
  split
  · rfl
  · exact List.length_set

theorem calls_remove (a : Arena) (id : BlockId) : (a.remove id).calls = a.calls := by
  rw [remove]
  split <;> rfl

structure Emptied (a u : Arena) (ids : List BlockId) : Prop where
  orderly : u.Orderly []
  get? : ∀ x, u.get? x = if x ∈ ids then none else a.get? x
  size : u.slots.length = a.slots.length
  calls : u.calls = a.calls

theorem emptied_remove (h : a.Orderly []) (hb : a.get? id = some b) :
    Emptied a (a.remove id) [id] where
  orderly := h.remove hb
  get? := by simpa using get?_remove hb
  size := a.length_remove id
  calls := a.calls_remove id

theorem emptied_removeAll (h : a.Orderly []) {ids : List BlockId} (hn : ids.Nodup)
    (hlive : ∀ id ∈ ids, ∃ b, a.get? id = some b) : Emptied a (ids.foldl remove a) ids := by
  induction ids generalizing a with
  | nil => exact ⟨h, by simp, rfl, rfl⟩
  | cons id ids ih =>
    obtain ⟨hnot, hn⟩ := List.nodup_cons.mp hn
    obtain ⟨b, hb⟩ := hlive id List.mem_cons_self
    have hget := get?_remove hb
    have hrest := ih (h.remove hb) hn fun x hx => by
      have hne : x ≠ id := fun he => hnot (he ▸ hx)
      rw [hget, if_neg hne]
      exact hlive x (List.mem_cons_of_mem id hx)
    refine ⟨hrest.orderly, fun x => ?_, ?_, ?_⟩
    · rw [List.foldl_cons, hrest.get?, hget]
      by_cases hx : x = id <;> simp [hx]
    · rw [List.foldl_cons, hrest.size, length_remove]
    · rw [List.foldl_cons, hrest.calls, calls_remove]

end BlockTemplate.Arena
