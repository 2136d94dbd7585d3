import BlockTemplate.Proofs.Call.Memo
import BlockTemplate.Proofs.Tree.Edit
import BlockTemplate.Snapshot.Basic

/-!
# What a snapshot holds

A snapshot has an entry for the block it was taken of and for each block below it. No two of these
blocks are saved under one name.
-/

namespace BlockTemplate.Snapshot

open Lookup (Reach)

def savedName (topName name : Text) : Text := if name = topName then rootName else name

def savedCalls (t : Tree) (b : Block) : Dict Text Call :=
  Dict.ofList (b.calls.filterMap fun id => (t.calls.get? id).map fun c => (id.memo, c))

structure Holds (s : Snapshot) (t : Tree) (topName : Text) (b : Block) : Prop where
  content : s.blocks.get? (savedName topName b.name) = some b.content
  vars : s.vars.get? (savedName topName b.name) = some b.vars
  children : s.children.get? (savedName topName b.name) =
    some (b.children.filterMap fun c => (t.get? c).map fun b => savedName topName b.name)
  functions : s.functions.get? (savedName topName b.name) = some (savedCalls t b)

variable {s : Snapshot} {t : Tree} {topName : Text} {b b₀ : Block} {top : BlockId}

theorem holds_addBlock (s : Snapshot) (t : Tree) (topName : Text) (b : Block) :
    (s.addBlock t false (savedName topName) b).Holds t topName b :=
  ⟨Dict.get?_insert_self _ _ _, Dict.get?_insert_self _ _ _, Dict.get?_insert_self _ _ _,
    Dict.get?_insert_self _ _ _⟩

theorem Holds.addBlock (h : s.Holds t topName b) {c : Block}
    (hne : savedName topName b.name ≠ savedName topName c.name) :
    (s.addBlock t false (savedName topName) c).Holds t topName b :=
  ⟨(Dict.get?_insert_ne _ _ hne).trans h.content, (Dict.get?_insert_ne _ _ hne).trans h.vars,
    (Dict.get?_insert_ne _ _ hne).trans h.children,
    (Dict.get?_insert_ne _ _ hne).trans h.functions⟩

theorem Holds.addBlocks (h : s.Holds t topName b) {es : List (BlockId × Block)}
    (hne : ∀ e ∈ es, savedName topName b.name ≠ savedName topName e.2.name) :
    (es.foldl (fun s e => s.addBlock t false (savedName topName) e.2) s).Holds t topName b := by
  induction es generalizing s with
  | nil => exact h
  | cons e es ih =>
    exact ih (h.addBlock (hne e List.mem_cons_self)) fun x hx => hne x (List.mem_cons_of_mem e hx)

theorem holds_addBlocks {es : List (BlockId × Block)}
    (hn : (es.map fun e => savedName topName e.2.name).Nodup) (s : Snapshot) :
    ∀ e ∈ es, (es.foldl (fun s e => s.addBlock t false (savedName topName) e.2) s).Holds t topName
      e.2 := by
  induction es generalizing s with
  | nil => exact fun e he => absurd he List.not_mem_nil
  | cons e es ih =>
    rw [List.map_cons, List.nodup_cons] at hn
    intro x hx
    rcases List.mem_cons.mp hx with rfl | hx
    · refine (holds_addBlock s t topName x.2).addBlocks ?_
      intro y hy he
      exact hn.1 (he ▸ List.mem_map_of_mem (f := fun e => savedName topName e.2.name) hy)
    · exact ih hn.2 _ x hx

theorem inclusions_addBlocks (es : List (BlockId × Block)) (s : Snapshot) :
    (es.foldl (fun s e => s.addBlock t false (savedName topName) e.2) s).inclusions =
      s.inclusions := by
  induction es generalizing s with
  | nil => rfl
  | cons e es ih => exact ih _

theorem savedName_inj (h : t.Sound) (hb : t.get? top = some b₀) {x y : BlockId} {c d : Block}
    (hx : Reach t.get? top x) (hc : t.get? x = some c) (hy : Reach t.get? top y)
    (hd : t.get? y = some d) (he : savedName b₀.name c.name = savedName b₀.name d.name) : x = y := by
  have htop : ∀ z g, t.get? z = some g → g.name = b₀.name → z = top :=
    fun z g hz hg => h.distinct z top g b₀ hz hb hg
  -- Nothing below the saved block has the name of the root, unless it is the root that is saved.
  have hroot : ∀ z g, Reach t.get? top z → t.get? z = some g → g.name = rootName → z = top := by
    intro z g hz hg hn
    obtain ⟨r, hr, hrn⟩ := h.root_name
    have hzr : z = rootId := h.distinct z rootId g r hg hr (hn.trans hrn.symm)
    subst hzr
    cases hz with
    | refl => rfl
    | child _ hp hm => exact absurd hm (h.tree.root_not_child hp)
  rw [savedName, savedName] at he
  split at he
  · rename_i hcn
    rw [htop x c hc hcn]
    split at he
    · rename_i hdn
      rw [htop y d hd hdn]
    · rw [hroot y d hy hd he.symm]
  · split at he
    · rename_i hcn hdn
      rw [htop y d hd hdn, hroot x c hx hc he]
    · exact h.distinct x y c d hc hd he

theorem take_eq (h : t.Sound) (hb : t.get? top = some b₀) (is : List Inclusion) :
    take t top is false = (t.preorder top).foldl
      (fun s e => s.addBlock t false (savedName b₀.name) e.2) ⟨∅, ∅, ∅, ∅, is⟩ := by
  obtain ⟨o, -, hid, hm, hpre⟩ := Tree.preorder_of_live h.tree hb
  have hname : ((t.preorder top).head?.map (·.2.name)).getD rootName = b₀.name := by
    have hlook := hm.look_id
    rw [hid, hb, Option.some.injEq] at hlook
    rw [hpre]
    cases o with
    | node id b cs =>
      cases hlook
      rfl
  simp only [take, hname]
  rfl

theorem nodup_savedNames (h : t.Sound) (hb : t.get? top = some b₀) :
    ((t.preorder top).map fun e => savedName b₀.name e.2.name).Nodup := by
  have hn := Tree.nodup_preorder h.tree hb
  refine List.Nodup.map_on ?_ hn.of_map
  intro x hx y hy he
  obtain ⟨hrx, hlx⟩ := (Tree.mem_preorder_iff h.tree hb).mp hx
  obtain ⟨hry, hly⟩ := (Tree.mem_preorder_iff h.tree hb).mp hy
  have hxy := savedName_inj h hb hrx hlx hry hly he
  rw [hxy, hly, Option.some.injEq] at hlx
  exact Prod.ext hxy hlx.symm

theorem holds_take (h : t.Sound) (hb : t.get? top = some b₀) (is : List Inclusion) {x : BlockId}
    (hx : Reach t.get? top x) {d : Block} (hd : t.get? x = some d) :
    (take t top is false).Holds t b₀.name d := by
  rw [take_eq h hb]
  exact holds_addBlocks (nodup_savedNames h hb) _ (x, d)
    ((Tree.mem_preorder_iff h.tree hb).mpr ⟨hx, hd⟩)

theorem inclusions_take (h : t.Sound) (hb : t.get? top = some b₀) (is : List Inclusion) :
    (take t top is false).inclusions = is := by
  rw [take_eq h hb, inclusions_addBlocks]

theorem length_preorder_le (h : t.Sound) (hb : t.get? top = some b₀) (is : List Inclusion) :
    (t.preorder top).length ≤ (take t top is false).blocks.entries.length := by
  have hsub : ((t.preorder top).map fun e => savedName b₀.name e.2.name) ⊆
      (take t top is false).blocks.entries.map (·.1) := by
    intro n hn
    obtain ⟨⟨x, d⟩, he, rfl⟩ := List.mem_map.mp hn
    obtain ⟨hr, hl⟩ := (Tree.mem_preorder_iff h.tree hb).mp he
    exact List.mem_map.mpr ⟨_, Dict.get?_eq_some_iff.mp (holds_take h hb is hr hl).content, rfl⟩
  have hle := (nodup_savedNames h hb).length_le_of_subset hsub
  rw [List.length_map, List.length_map] at hle
  exact hle

theorem get?_savedCalls (t : Tree) (b : Block) {name : Text} {c : Call} :
    (savedCalls t b).get? name = some c ↔
      ∃ id ∈ b.calls, t.calls.get? id = some c ∧ name = id.memo := by
  have hmem : ∀ e, e ∈ b.calls.filterMap (fun id => (t.calls.get? id).map fun c => (id.memo, c)) ↔
      ∃ id ∈ b.calls, t.calls.get? id = some e.2 ∧ e.1 = id.memo := by
    intro e
    rw [List.mem_filterMap]
    constructor
    · rintro ⟨id, hid, he⟩
      obtain ⟨d, hd, rfl⟩ := Option.map_eq_some_iff.mp he
      exact ⟨id, hid, hd, rfl⟩
    · rintro ⟨id, hid, hd, hn⟩
      exact ⟨id, hid, Option.map_eq_some_iff.mpr ⟨e.2, hd, by rw [← hn]⟩⟩
  have hfun : ∀ e ∈ b.calls.filterMap (fun id => (t.calls.get? id).map fun c => (id.memo, c)),
      ∀ e' ∈ b.calls.filterMap (fun id => (t.calls.get? id).map fun c => (id.memo, c)),
        e.1 = e'.1 → e.2 = e'.2 := by
    intro e he e' he' hn
    obtain ⟨id, -, hd, hid⟩ := (hmem e).mp he
    obtain ⟨id', -, hd', hid'⟩ := (hmem e').mp he'
    rw [hid, hid'] at hn
    rw [← CallId.memo_inj hn] at hd'
    rw [hd', Option.some.injEq] at hd
    exact hd.symm
  rw [savedCalls, Dict.get?_ofList hfun]
  exact hmem (name, c)

end BlockTemplate.Snapshot
