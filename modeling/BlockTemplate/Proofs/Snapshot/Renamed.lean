import BlockTemplate.Proofs.Document.Splice
import BlockTemplate.Proofs.Snapshot.Copy
import BlockTemplate.Proofs.Template.Session

/-!
# Restored blocks under other names

A block that was saved with all below it comes back in any other tree as it was, with other names for
the results of its calls and for its inclusions. The names are given one after the other, but no name
that was given is changed again, so each old name has one new name and no two have the same.
-/

namespace BlockTemplate.Snapshot

open Lookup (Reach)

section Numbering

variable {is : List Inclusion} {next : Nat} {names : Renaming}

theorem renumber_fst (next : Nat) (is : List Inclusion) (names : Renaming) :
    (renumber next is names).1 = is.mapIdx fun n i => ⟨Inclusion.numbered (next + n), i.path⟩ := by
  induction is generalizing next names with
  | nil => rfl
  | cons i is ih =>
    rw [renumber]
    dsimp only
    rw [ih, List.mapIdx_cons]
    simp only [Nat.add_zero, Nat.add_assoc, Nat.add_comm 1]

theorem renumber_of_not_mem {x : Text} (hx : x ∉ is.map (·.name)) (next : Nat) (names : Renaming) :
    (renumber next is names).2.get? x = names.get? x := by
  induction is generalizing next names with
  | nil => rfl
  | cons i is ih =>
    rw [List.map_cons, List.mem_cons, not_or] at hx
    exact (ih hx.2 _ _).trans (Dict.get?_insert_ne _ _ hx.1)

theorem renumber_of_getElem? (hd : (is.map (·.name)).Nodup) {n : Nat} {i : Inclusion}
    (hi : is[n]? = some i) (next : Nat) (names : Renaming) :
    (renumber next is names).2.get? i.name = some (Inclusion.numbered (next + n)) := by
  induction is generalizing next names n with
  | nil => cases hi
  | cons j is ih =>
    obtain ⟨hj, hd⟩ := List.nodup_cons.mp hd
    cases n with
    | zero =>
      cases hi
      exact (renumber_of_not_mem hj _ _).trans (Dict.get?_insert_self _ _ _)
    | succ n =>
      rw [List.getElem?_cons_succ] at hi
      rw [← Nat.add_assoc, Nat.add_right_comm]
      exact ih hd hi (next + 1) _

end Numbering

variable {d : Dialect} {t : Tree} {top : BlockId} {is : List Inclusion} {table : CallTable}
  {next : Nat} {rename : Text → Text}

def Occurs (d : Dialect) (t : Tree) (top : BlockId) (x : Text) : Prop :=
  ∃ p b, Reach t.get? top p ∧ t.get? p = some b ∧ (x ∈ b.vars ∨ x ∈ d.lookups b.content)

/--
Each name in what is saved is of one kind: it stands for the result of a call made there, or for an
inclusion, or it is like neither.
-/
structure Portable (d : Dialect) (t : Tree) (top : BlockId) (is : List Inclusion) : Prop where
  distinct : (is.map (·.name)).Nodup
  inclusions : ∀ i ∈ is, ∀ id, i.name ≠ CallId.memo id
  vars : ∀ p b, Reach t.get? top p → t.get? p = some b → ∀ v ∈ b.vars, ∀ id, v ≠ CallId.memo id
  memos : ∀ id, Occurs d t top (CallId.memo id) → Covers t top id
  others : ∀ x, Occurs d t top x → x ∉ is.map (·.name) → ∀ n, x ≠ Inclusion.numbered n

theorem portable_of_preorder (h : t.Sound) {b₀ : Block} (hb₀ : t.get? top = some b₀)
    (hd : (is.map (·.name)).Nodup) (hi : ∀ i ∈ is, CallId.isMemo i.name = false)
    (hv : ∀ e ∈ t.preorder top, ∀ v ∈ e.2.vars, CallId.isMemo v = false)
    (hm : ∀ e ∈ t.preorder top, ∀ x ∈ d.lookups e.2.content, CallId.isMemo x = true →
      ∃ e' ∈ t.preorder top, x ∈ e'.2.calls.map CallId.memo)
    (ho : ∀ e ∈ t.preorder top, ∀ x ∈ e.2.vars ++ d.lookups e.2.content,
      x ∈ is.map (·.name) ∨ Text.expect "trigger_".toList x = none) : Portable d t top is := by
  have hmem : ∀ p b, Reach t.get? top p → t.get? p = some b → (p, b) ∈ t.preorder top :=
    fun p b hp hb => (Tree.mem_preorder_iff h.tree hb₀).mpr ⟨hp, hb⟩
  have hplain : ∀ {x : Text}, CallId.isMemo x = false → ∀ id, x ≠ CallId.memo id := by
    intro x hx id he
    rw [he, CallId.isMemo_memo] at hx
    cases hx
  refine ⟨hd, fun i hii => hplain (hi i hii),
    fun p b hp hb v hvb => hplain (hv _ (hmem p b hp hb) v hvb), ?_, ?_⟩
  · rintro id ⟨p, b, hp, hb, hvar | hlook⟩
    · exact absurd rfl (hplain (hv _ (hmem p b hp hb) _ hvar) id)
    · obtain ⟨⟨q, c⟩, hq, hid⟩ := hm _ (hmem p b hp hb) _ hlook (CallId.isMemo_memo id)
      obtain ⟨hreach, hc⟩ := (Tree.mem_preorder_iff h.tree hb₀).mp hq
      obtain ⟨j, hj, he⟩ := List.mem_map.mp hid
      exact ⟨q, c, hreach, hc, CallId.memo_inj he ▸ hj⟩
  · rintro x ⟨p, b, hp, hb, hx⟩ hxi n he
    have hnone := (ho _ (hmem p b hp hb) x (List.mem_append.mpr hx)).resolve_left hxi
    have hstart : Text.expect "trigger_".toList (Inclusion.numbered n) = some (Text.decimal n) :=
      Text.expect_eq_some.mpr rfl
    rw [he, hstart] at hnone
    exact Option.some_ne_none _ hnone

/--
New names for what is saved: results of calls have those of the same calls in the table, inclusions
are numbered from `next` on, and other names stay.
-/
structure Renames (t : Tree) (top : BlockId) (is : List Inclusion) (table : CallTable) (next : Nat)
    (rename : Text → Text) : Prop where
  calls : ∀ id, Covers t top id → ∃ c i, t.calls.get? id = some c ∧ table.find? c = some i ∧
    rename id.memo = CallId.memo i
  inclusions : ∀ n i, is[n]? = some i → rename i.name = Inclusion.numbered (next + n)
  others : ∀ x, (∀ id, Covers t top id → x ≠ id.memo) → x ∉ is.map (·.name) → rename x = x

inductive Named (d : Dialect) (t : Tree) (top : BlockId) (is : List Inclusion) (x : Text) : Prop
  | call (id : CallId) : Covers t top id → x = id.memo → Named d t top is x
  | inclusion (n : Nat) (i : Inclusion) : is[n]? = some i → x = i.name → Named d t top is x
  | other : Occurs d t top x → (∀ id, x ≠ CallId.memo id) → x ∉ is.map (·.name) →
    Named d t top is x

theorem Portable.named (hp : Portable d t top is) {x : Text} (hx : Occurs d t top x) :
    Named d t top is x := by
  by_cases hi : x ∈ is.map (·.name)
  · obtain ⟨i, hm, rfl⟩ := List.mem_map.mp hi
    obtain ⟨n, hn⟩ := List.mem_iff_getElem?.mp hm
    exact .inclusion n i hn rfl
  · by_cases hm : ∃ id, x = CallId.memo id
    · obtain ⟨id, rfl⟩ := hm
      exact .call id (hp.memos id hx) rfl
    · exact .other hx (fun id he => hm ⟨id, he⟩) hi

theorem Renames.inj (hr : Renames t top is table next rename) (h : t.Sound)
    (hp : Portable d t top is) {x y : Text} (hx : Named d t top is x) (hy : Named d t top is y)
    (he : rename x = rename y) : x = y := by
  have hmemo : ∀ id n, CallId.memo id ≠ Inclusion.numbered n := by
    intro id n he
    have hm := CallId.isMemo_memo id
    rw [he, Inclusion.isMemo_numbered] at hm
    cases hm
  have hother : ∀ x, (∀ id, x ≠ CallId.memo id) → x ∉ is.map (·.name) → rename x = x :=
    fun x hx hi => hr.others x (fun id _ => hx id) hi
  -- New names of one kind are kept apart, and a new name shows of which kind it is.
  rcases hx with ⟨id, hid, rfl⟩ | ⟨n, i, hi, rfl⟩ | ⟨hx, hxm, hxi⟩ <;>
    rcases hy with ⟨id', hid', rfl⟩ | ⟨n', i', hi', rfl⟩ | ⟨hy, hym, hyi⟩
  · obtain ⟨c, j, hc, hj, hm⟩ := hr.calls id hid
    obtain ⟨c', j', hc', hj', hm'⟩ := hr.calls id' hid'
    rw [hm, hm'] at he
    have hjj : j = j' := CallId.memo_inj he
    subst hjj
    have hcc : c = c' := Option.some.inj
      ((CallTable.get?_of_find? hj).symm.trans (CallTable.get?_of_find? hj'))
    subst hcc
    rw [h.calls id id' c hc hc']
  · obtain ⟨c, j, -, -, hm⟩ := hr.calls id hid
    rw [hm, hr.inclusions n' i' hi'] at he
    exact absurd he (hmemo j _)
  · obtain ⟨c, j, -, -, hm⟩ := hr.calls id hid
    rw [hm, hother y hym hyi] at he
    exact absurd he.symm (hym j)
  · obtain ⟨c, j, -, -, hm⟩ := hr.calls id' hid'
    rw [hm, hr.inclusions n i hi] at he
    exact absurd he.symm (hmemo j _)
  · rw [hr.inclusions n i hi, hr.inclusions n' i' hi'] at he
    have hn : n = n' := Nat.add_left_cancel (Inclusion.numbered_inj he)
    subst hn
    rw [hi, Option.some.injEq] at hi'
    rw [hi']
  · rw [hr.inclusions n i hi, hother y hym hyi] at he
    exact absurd he.symm (hp.others y hy hyi _)
  · obtain ⟨c, j, -, -, hm⟩ := hr.calls id' hid'
    rw [hm, hother x hxm hxi] at he
    exact absurd he (hxm j)
  · rw [hr.inclusions n' i' hi', hother x hxm hxi] at he
    exact absurd he (hp.others x hx hxi _)
  · rw [hother x hxm hxi, hother y hym hyi] at he
    exact he

/-- The block `g` is the block `b` in slot `x` under other names, with places for numbers of blocks. -/
structure Renamed (d : Dialect) (rename : Text → Text) (top : BlockId) (name : Text)
    (places : List BlockId) (x : BlockId) (b g : Block) : Prop where
  name : g.name = if x = top then name else b.name
  content : g.content = d.splice (fun y => some (d.token (rename y))) b.content
  vars : g.vars = (b.vars.foldl addNew []).map rename
  vars_nodup : b.vars.Nodup → g.vars = b.vars.map rename
  calls_nodup : g.calls.Nodup
  calls : ∀ i : CallId, i ∈ g.calls ↔ ∃ id ∈ b.calls, rename (CallId.memo id) = i.memo
  children : g.children.map (fun i => places[i]?) = b.children.map some
  parent : g.parent.map (fun i => places[i]?) = if x = top then none else b.parent.map some

/-- The fragment is the block `top` with all below it, in the order of the places. -/
structure Moved (d : Dialect) (t : Tree) (top : BlockId) (rename : Text → Text) (name : Text)
    (places : List BlockId) (f : Fragment) : Prop where
  first : places.head? = some top
  nodup : places.Nodup
  all : ∀ x, x ∈ places ↔ Reach t.get? top x
  blocks : List.Forall₂ (fun x g => ∃ b, t.get? x = some b ∧
    Renamed d rename top name places x b g) places f

section Copied

variable {all : List BlockId} {seen : List Text} {r : Restored} {b₀ : Block} {topName : Text}
  {new : Renaming}

theorem Copying.mem_iff (hc : Copying t top topName new all [] seen r) (x : BlockId) :
    x ∈ all ↔ Reach t.get? top x := by
  have hfirst := hc.first
  have hunder := hc.under
  have hlisted := hc.listed
  rw [List.append_nil] at hfirst hunder hlisted
  refine ⟨hunder x, fun hx => ?_⟩
  induction hx with
  | refl => exact List.mem_of_head? hfirst
  | child _ hp hm ih => exact hlisted _ ih _ hp _ hm

theorem Copying.copied (hc : Copying t top topName new all [] seen r) {i : Nat} {x : BlockId}
    (hx : all[i]? = some x) : ∃ b g, t.get? x = some b ∧ r.blocks[i]? = some g ∧
      Copies t topName new all r b g := by
  obtain ⟨hlt, rfl⟩ := List.getElem?_eq_some_iff.mp hx
  have hlt' : i < r.blocks.length := hc.length_done ▸ hlt
  obtain ⟨b, hb, hcopy⟩ := hc.blocks.get hlt hlt'
  rw [List.append_nil] at hcopy
  exact ⟨b, _, hb, List.getElem?_eq_getElem hlt', hcopy⟩

def newName (r : Restored) (x : Text) : Text := (r.names.get? x).getD x

theorem Told.newName_eq {id i : CallId} (h : Told t r id i) : newName r id.memo = i.memo := by
  obtain ⟨c, -, -, hname⟩ := h
  rw [newName, hname, Option.getD_some]

theorem Copying.renames (hc : Copying t top topName (renumber next is ∅).2 all [] seen r)
    (hp : Portable d t top is) : Renames t top is r.table next (newName r) where
  calls := by
    rintro id ⟨x, b, hx, hb, hid⟩
    obtain ⟨i, hi⟩ := List.mem_iff_getElem?.mp ((hc.mem_iff x).mpr hx)
    obtain ⟨b', g, hb', -, hcopy⟩ := hc.copied hi
    rw [hb, Option.some.injEq] at hb'
    subst hb'
    obtain ⟨j, -, htold⟩ := hcopy.told id hid
    have ⟨c, hcall, hfind, _⟩ := htold
    exact ⟨c, j, hcall, hfind, htold.newName_eq⟩
  inclusions := by
    intro n i hi
    have hplain := hp.inclusions i (List.mem_of_getElem? hi)
    rw [newName, hc.old i.name fun id _ => hplain id, renumber_of_getElem? hp.distinct hi,
      Option.getD_some]
  others := by
    intro x hx hi
    rw [newName, hc.old x hx, renumber_of_not_mem hi]
    rfl

def restored (d : Dialect) (name : Text) (r : Restored) : Fragment :=
  nameTop name (Fragment.withParents (r.blocks.map (renameTokens d r.names)))

theorem length_restored (d : Dialect) (name : Text) (r : Restored) :
    (restored d name r).length = r.blocks.length := by
  have htop : ∀ f, (nameTop name f).length = f.length := by
    intro f
    cases f with
    | nil => rfl
    | cons b rest => rfl
  rw [restored, htop, Fragment.withParents, List.length_mapIdx, List.length_map]

theorem look_restored (d : Dialect) (name : Text) (r : Restored) (i : Nat) :
    Fragment.look (restored d name r) i =
      r.blocks[i]?.map fun g => { renameTokens d r.names g with
        name := if i = 0 then name else g.name
        parent := (r.blocks.map (renameTokens d r.names)).findIdx? fun p =>
          p.children.contains i } := by
  rw [restored, look_nameTop, Fragment.look_withParents, List.getElem?_map, Option.map_map,
    Option.map_map]
  rfl

theorem Copying.eq_top_iff (hc : Copying t top topName new all [] seen r) {i : Nat} {x : BlockId}
    (hx : all[i]? = some x) : i = 0 ↔ x = top := by
  have hfirst := hc.first
  have hnodup := hc.nodup
  rw [List.append_nil] at hfirst hnodup
  rw [List.head?_eq_getElem?] at hfirst
  constructor
  · rintro rfl
    exact Option.some.inj (hx.symm.trans hfirst)
  · rintro rfl
    exact (List.getElem?_inj (List.getElem?_eq_some_iff.mp hx).1 hnodup).mp (hx.trans hfirst.symm)

theorem Copying.parent_eq (hc : Copying t top topName new all [] seen r) (h : t.Sound)
    {name : Text} (hf : Lookup.IsTree (Fragment.look (restored d name r)) 0) {i : Nat} {x : BlockId}
    {b g' : Block} (hi : all[i]? = some x) (hb : t.get? x = some b)
    (hg' : Fragment.look (restored d name r) i = some g') :
    g'.parent.map (fun j => all[j]?) = if x = top then none else b.parent.map some := by
  have hnodup := hc.nodup
  rw [List.append_nil] at hnodup
  by_cases hx : x = top
  · obtain rfl := (hc.eq_top_iff hi).mpr hx
    obtain ⟨g₀, hg₀, hparent⟩ := hf.top
    rw [hg', Option.some.injEq] at hg₀
    rw [if_pos hx, hg₀, hparent]
    rfl
  · cases (hc.mem_iff x).mp (List.mem_of_getElem? hi) with
    | refl => exact absurd rfl hx
    | child hp hbp hxp =>
      rename_i p bp
      obtain ⟨j, hj⟩ := List.mem_iff_getElem?.mp ((hc.mem_iff p).mpr hp)
      obtain ⟨bp', gp, hbp', hgp, hcopy⟩ := hc.copied hj
      rw [hbp, Option.some.injEq] at hbp'
      subst hbp'
      obtain ⟨gp', hgp', hchildren⟩ : ∃ gp', Fragment.look (restored d name r) j = some gp' ∧
          gp'.children = gp.children :=
        ⟨_, (look_restored d name r j).trans (congrArg _ hgp), rfl⟩
      have hplace : some x ∈ gp.children.map fun i => all[i]? :=
        hcopy.children ▸ List.mem_map_of_mem hxp
      obtain ⟨i', hi', hx'⟩ := List.mem_map.mp hplace
      have hii : i = i' :=
        (List.getElem?_inj (List.getElem?_eq_some_iff.mp hi).1 hnodup).mp (hi.trans hx'.symm)
      subst hii
      obtain ⟨d, hd, hdp⟩ := hf.child_live hgp' (hchildren ▸ hi')
      rw [hg', Option.some.injEq] at hd
      obtain ⟨e, he, hep⟩ := h.tree.child_live hbp hxp
      rw [hb, Option.some.injEq] at he
      rw [if_neg hx, hd, hdp, he, hep, Option.map_some, hj]
      rfl

theorem Copies.mem_calls_iff {b g : Block} (h : Copies t topName new all r b g) (i : CallId) :
    i ∈ g.calls ↔ ∃ id ∈ b.calls, newName r (CallId.memo id) = i.memo := by
  constructor
  · intro hi
    obtain ⟨id, hid, htold⟩ := h.calls i hi
    exact ⟨id, hid, htold.newName_eq⟩
  · rintro ⟨id, hid, he⟩
    obtain ⟨j, hj, htold⟩ := h.told id hid
    rw [htold.newName_eq] at he
    exact CallId.memo_inj he ▸ hj

theorem Copying.vars_eq (hc : Copying t top topName (renumber next is ∅).2 all [] seen r)
    (h : t.Sound) (hp : Portable d t top is) {x : BlockId} {b : Block}
    (hx : Reach t.get? top x) (hb : t.get? x = some b) :
    renumbered (renumber next is ∅).2 b.vars = (b.vars.foldl addNew []).map (newName r) := by
  have htold : ∀ v ∈ b.vars, ((renumber next is ∅).2.get? v).getD v = newName r v := by
    intro v hv
    rw [newName, hc.old v fun id _ => hp.vars x b hx hb v hv id]
  have hnamed : ∀ v ∈ b.vars, Named d t top is v :=
    fun v hv => hp.named ⟨x, b, hx, hb, .inl hv⟩
  rw [renumbered, List.map_congr_left htold]
  exact foldl_addNew_map [] fun v hv w hw he =>
    (hc.renames hp).inj h hp (hnamed v hv) (hnamed w hw) he

theorem Copying.moved (hc : Copying t top b₀.name (renumber next is ∅).2 all [] seen r)
    (h : t.Sound) (hb₀ : t.get? top = some b₀) (hp : Portable d t top is) {name : Text}
    (hf : Lookup.IsTree (Fragment.look (restored d name r)) 0) :
    Moved d t top (newName r) name all (restored d name r) := by
  have hfirst := hc.first
  have hnodup := hc.nodup
  rw [List.append_nil] at hfirst hnodup
  have hlen : all.length = (restored d name r).length := by
    have hcount := hc.length_done
    rw [length_restored, hcount]
  refine ⟨hfirst, hnodup, hc.mem_iff, List.forall₂_of_length_eq_of_get hlen ?_⟩
  intro i hi hi'
  have hx : all[i]? = some (all.get ⟨i, hi⟩) := List.getElem?_eq_getElem hi
  have hg' : Fragment.look (restored d name r) i = some ((restored d name r).get ⟨i, hi'⟩) :=
    List.getElem?_eq_getElem hi'
  generalize all.get ⟨i, hi⟩ = x at hx
  generalize (restored d name r).get ⟨i, hi'⟩ = g' at hg'
  obtain ⟨b, g, hb, hg, hcopy⟩ := hc.copied hx
  refine ⟨b, hb, ?_⟩
  have hreach : Reach t.get? top x := (hc.mem_iff x).mp (List.mem_of_getElem? hx)
  have hparent := hc.parent_eq h hf hx hb hg'
  rw [look_restored, hg, Option.map_some, Option.some.injEq] at hg'
  subst hg'
  have hvars : g.vars = (b.vars.foldl addNew []).map (newName r) :=
    hcopy.vars.trans (hc.vars_eq h hp hreach hb)
  exact {
    name := by
      dsimp only
      by_cases htop : x = top
      · rw [if_pos htop, if_pos ((hc.eq_top_iff hx).mpr htop)]
      · have hne : b.name ≠ b₀.name := fun he => htop (h.distinct x top b b₀ hb hb₀ he)
        rw [if_neg htop, if_neg fun hi => htop ((hc.eq_top_iff hx).mp hi), hcopy.name, savedName,
          if_neg hne]
    content := by
      change d.splice (fun y => (r.names.get? y).map d.token) g.content = _
      rw [hcopy.content, Dialect.splice_getD]
      rfl
    vars := hvars
    vars_nodup := by
      intro hn
      exact hvars.trans (congrArg _ (foldl_addNew_of_nodup hn))
    calls_nodup := hcopy.nodup
    calls := hcopy.mem_calls_iff
    children := hcopy.children
    parent := hparent }

end Copied

/--
What was saved of a block comes back in any tree as the block and all below it, under a new name for
the block and new names for the placeholders, which no two of the old ones share.
-/
theorem restore_undoes_take (h : t.Sound) {b₀ : Block} (hb₀ : t.get? top = some b₀)
    (hp : Portable d t top is) (name : Text) (table : CallTable) (next : Nat) :
    ∃ f places rename table',
      restore d name table next (take t top is false) =
        (some (f, is.mapIdx fun n i => ⟨Inclusion.numbered (next + n), i.path⟩), table') ∧
      table.Extends table' ∧ Renames t top is table' next rename ∧
      (∀ x y, Named d t top is x → Named d t top is y → rename x = rename y → x = y) ∧
      Moved d t top rename name places f := by
  obtain ⟨all, r, seen, hrun, hc⟩ :=
    restore_take h hb₀ (fun p b hr hb v hv id _ => hp.vars p b hr hb v hv id) d name table next is
  obtain ⟨hgrown, -, hready⟩ := restore_spec d name table next (take t top is false)
  rw [hrun] at hgrown hready
  have hrename := hc.renames hp
  refine ⟨_, all, newName r, r.table, ?_, hgrown, hrename,
    fun x y hx hy he => hrename.inj h hp hx hy he, hc.moved h hb₀ hp (hready _ _ rfl).tree⟩
  rw [hrun, renumber_fst]
  rfl

private def pair : Tree :=
  ((Session.start .empty).run .standard [.compile ("\x7bt:h\x7d \x7btrigger_0\x7d " ++
    "<!-- BEGIN b -->func_u('x')\x7btrigger_1\x7d\x7bt:h\x7d<!-- END b -->").toList]).template.tree

private def pairInclusions : List Inclusion :=
  [⟨Inclusion.numbered 1, "b.html".toList⟩, ⟨Inclusion.numbered 0, "a.html".toList⟩]

private def swappedCalls : CallTable := ⟨[some ⟨['u'], [['x']]⟩]⟩

/-- The calls exchange their names, and so do the inclusions. -/
theorem restore_undoes_take_swapped :
    (∀ b ∈ pair.get? rootId, b.content = "{__function_0__} {trigger_0} {__b__}".toList) ∧
    (restore .standard "page".toList swappedCalls 0 (take pair rootId pairInclusions false)).1 =
      some ([{ name := "page".toList, content := "{__function_1__} {trigger_1} {__b__}".toList,
               vars := [['t'], "trigger_1".toList], calls := [1], children := [1] },
             { name := ['b'], content := "{__function_0__}{trigger_0}{__function_1__}".toList,
               vars := ["trigger_0".toList, ['t']], calls := [1, 0], parent := some 0 }],
        [⟨"trigger_0".toList, "b.html".toList⟩, ⟨"trigger_1".toList, "a.html".toList⟩]) ∧
    ∃ f places rename table',
      restore .standard "page".toList swappedCalls 0 (take pair rootId pairInclusions false) =
        (some (f, pairInclusions.mapIdx fun n i => ⟨Inclusion.numbered (0 + n), i.path⟩),
          table') ∧
      swappedCalls.Extends table' ∧ Renames pair rootId pairInclusions table' 0 rename ∧
      (∀ x y, Named .standard pair rootId pairInclusions x →
        Named .standard pair rootId pairInclusions y → rename x = rename y → x = y) ∧
      Moved .standard pair rootId rename "page".toList places f := by
  have hsound : pair.Sound := by
    have hstart : (Session.start .empty).template.Sound := Template.sound_empty
    rw [pair]
    exact (Session.sound_run .standard hstart _).tree
  obtain ⟨b₀, hb₀, -⟩ := hsound.root_name
  have hportable : Portable .standard pair rootId pairInclusions :=
    portable_of_preorder hsound hb₀ (by decide +kernel) (by decide +kernel) (by decide +kernel)
      (by decide +kernel) (by decide +kernel)
  exact ⟨by decide +kernel, by decide +kernel,
    restore_undoes_take hsound hb₀ hportable "page".toList swappedCalls 0⟩

end BlockTemplate.Snapshot
