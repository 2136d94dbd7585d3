import BlockTemplate.Proofs.Section.Edit

/-!
# Trees that differ by numbers

Two trees are alike if renaming the slots and the call numbers of the one gives the other. Trees that
read as the same sections are alike, and if the sections list things in other orders, so do the blocks.
-/

namespace BlockTemplate

def moveLast {α : Type} [DecidableEq α] (x : α) (xs : List α) : List α :=
  if x ∈ xs then xs.erase x ++ [x] else xs

section MoveLast

variable {α β : Type} [DecidableEq α] [DecidableEq β] {x : α} {xs : List α}

theorem moveLast_of_not_mem (h : x ∉ xs) : moveLast x xs = xs := if_neg h

theorem perm_moveLast (x : α) (xs : List α) : (moveLast x xs).Perm xs := by
  rw [moveLast]
  split
  · rename_i hx
    exact (List.perm_append_singleton x _).trans (List.perm_cons_erase hx).symm
  · exact .rfl

theorem moveLast_append {front back : List α} (h : x ∉ front) :
    moveLast x (front ++ x :: back) = front ++ (back ++ [x]) := by
  rw [moveLast, if_pos (List.mem_append_right _ List.mem_cons_self), List.erase_append_right _ h,
    List.erase_cons_head, List.append_assoc]

theorem moveLast_of_getLast? (hn : xs.Nodup) (h : xs.getLast? = some x) : moveLast x xs = xs := by
  obtain ⟨front, rfl⟩ := List.getLast?_eq_some_iff.mp h
  have hnot : x ∉ front := fun hf =>
    (List.nodup_append.mp hn).2.2 x hf x (List.mem_singleton_self x) rfl
  exact moveLast_append hnot

theorem map_moveLast {f : α → β} (h : ∀ y ∈ xs, f y = f x → y = x) :
    (moveLast x xs).map f = moveLast (f x) (xs.map f) := by
  by_cases hx : x ∈ xs
  · obtain ⟨front, back, rfl, hfront⟩ := List.eq_append_cons_of_mem hx
    have hnot : f x ∉ front.map f := by
      intro hm
      obtain ⟨y, hy, he⟩ := List.mem_map.mp hm
      exact hfront (h y (List.mem_append_left _ hy) he ▸ hy)
    rw [moveLast_append hfront, List.map_append, List.map_append, List.map_singleton,
      List.map_append, List.map_cons, moveLast_append hnot]
  · have hnot : f x ∉ xs.map f := by
      intro hm
      obtain ⟨y, hy, he⟩ := List.mem_map.mp hm
      exact hx (h y hy he ▸ hy)
    rw [moveLast_of_not_mem hx, moveLast_of_not_mem hnot]

end MoveLast

attribute [ext] Block

namespace Block

def renamedMemo (g : CallId → CallId) (b : Block) (name : Text) : Option Text :=
  (b.calls.find? fun c => c.memo = name).map fun c => Markup.token (g c).memo

def rename (f : BlockId → BlockId) (g : CallId → CallId) (b : Block) : Block where
  name := b.name
  content := Dialect.standard.splice (b.renamedMemo g) b.content
  vars := b.vars
  calls := b.calls.map g
  children := b.children.map f
  parent := b.parent.map f

def lastly (x : BlockId) (b : Block) : Block := { b with children := moveLast x b.children }

structure Reorders (b c : Block) : Prop where
  name : c.name = b.name
  content : c.content = b.content
  vars : c.vars.Perm b.vars
  calls : c.calls.Perm b.calls
  children : c.children.Perm b.children
  parent : c.parent = b.parent

end Block

def Section.lastly (n : Text) (s : Section) : Section := { s with children := moveLast n s.children }

structure Section.Reorders (s s' : Section) : Prop where
  name : s'.name = s.name
  parts : s'.parts = s.parts
  vars : s'.vars.Perm s.vars
  calls : s'.calls.Perm s.calls
  children : s'.children.Perm s.children

theorem Section.lastly_of_not_mem {n : Text} {s : Section} (h : n ∉ s.children) : s.lastly n = s := by
  rw [Section.lastly, moveLast_of_not_mem h]

theorem Section.Reorders.refl (s : Section) : s.Reorders s := ⟨rfl, rfl, .rfl, .rfl, .rfl⟩

theorem Section.reorders_lastly (n : Text) (s : Section) : (s.lastly n).Reorders s where
  name := rfl
  parts := rfl
  vars := .rfl
  calls := .rfl
  children := (perm_moveLast n s.children).symm

namespace Tree

structure Renames (R : Block → Block → Prop) (t u : Tree) (f : BlockId → BlockId)
    (g : CallId → CallId) : Prop where
  root : f rootId = rootId
  block : ∀ id b, t.get? id = some b → ∃ c, u.get? (f id) = some c ∧ R (b.rename f g) c
  slot_inj : ∀ i j, t.Live i → t.Live j → f i = f j → i = j
  slot_onto : ∀ j, u.Live j → ∃ i, t.Live i ∧ f i = j
  call : ∀ i c, t.calls.get? i = some c → u.calls.get? (g i) = some c
  call_inj : ∀ i j c d, t.calls.get? i = some c → t.calls.get? j = some d → g i = g j → i = j
  call_onto : ∀ j c, u.calls.get? j = some c → ∃ i, t.calls.get? i = some c ∧ g i = j

/-- The trees are equal up to the numbers of blocks and of calls. -/
def Alike (t u : Tree) : Prop := ∃ f g, Renames Eq t u f g

/-- The same, but for the block of a name, which stands behind its siblings in the first tree. -/
def AlikeButLast (name : Text) (t u : Tree) : Prop :=
  ∃ x f g, u.find? name = some x ∧ Renames (fun b c => b = c.lastly x) t u f g

def StandsLast (name : Text) (t : Tree) : Prop :=
  ∀ x p b, t.find? name = some x → t.get? p = some b → x ∈ b.children →
    b.children.getLast? = some x

/-- The trees are equal up to the numbers of blocks and of calls and the order of the lists. -/
def AlikeUpToOrder (t u : Tree) : Prop := ∃ f g, Renames Block.Reorders t u f g

end Tree

theorem Block.Accords.rename {number number' : Call → CallId} {b : Block} {s : Section}
    {f : BlockId → BlockId} {g : CallId → CallId} (h : b.Accords number s) (hs : s.Clear)
    (hg : ∀ c ∈ s.calls, g (number c) = number' c) : (b.rename f g).Accords number' s where
  name := h.name
  content := by
    have hmemo : ∀ name, CallId.isMemo name = false → b.renamedMemo g name = none := by
      intro name hname
      have hfind : b.calls.find? (fun c => c.memo = name) = none := by
        refine List.find?_eq_none.mpr ?_
        intro c _ he
        rw [← of_decide_eq_true he, CallId.isMemo_memo] at hname
        cases hname
      rw [renamedMemo, hfind]
      rfl
    have hresult : ∀ c ∈ s.calls,
        b.renamedMemo g (number c).memo = some (Markup.token (number' c).memo) := by
      intro c hc
      have hmem : number c ∈ b.calls := h.calls ▸ List.mem_map_of_mem hc
      have hfind : b.calls.find? (fun i => i.memo = (number c).memo) = some (number c) := by
        obtain ⟨i, hi⟩ := Option.isSome_iff_exists.mp
          (List.find?_isSome (p := fun i => i.memo = (number c).memo).mpr ⟨_, hmem, decide_eq_true rfl⟩)
        have heq := List.find?_some (p := fun i : CallId => decide (i.memo = (number c).memo)) hi
        rw [hi, CallId.memo_inj (of_decide_eq_true heq)]
      rw [renamedMemo, hfind, Option.map_some, hg c hc]
    have hkeep : Dialect.standard.splice (b.renamedMemo g) (Part.textAll number s.parts) =
        Part.textAll number' (s.parts.flatMap fun p => [p]) := by
      refine Part.splice_eq_textAll hs.parts ?_
      intro p hp
      rw [Part.textAll_cons, Part.textAll, List.flatMap_nil, List.append_nil]
      have hclear := hs.parts p hp
      cases p with
      | char c => rfl
      | var name => rw [Part.spliced, Part.key, Option.bind_some, hmemo name hclear.2]; rfl
      | child block => rw [Part.spliced, Part.key, Option.bind_some, hmemo _ hclear.2]; rfl
      | result c =>
        rw [Part.spliced, Part.key, Option.bind_some, hresult c (hs.listed c hp)]
        rfl
    change Dialect.standard.splice (b.renamedMemo g) b.content = _
    rw [h.content, hkeep, List.flatMap_singleton']
  vars := h.vars
  calls := by
    change b.calls.map g = _
    rw [h.calls, List.map_map]
    exact List.map_congr_left hg

namespace Tree

variable {t u : Tree} {S S' : List Section}

def slotOf (t : Tree) (name : Text) : BlockId := (t.find? name).getD rootId

def slotIn (t u : Tree) (id : BlockId) : BlockId :=
  ((Lookup.nameAt t.get? id).map u.slotOf).getD rootId

def callIn (t u : Tree) (i : CallId) : CallId := ((t.calls.get? i).map u.calls.numberOf).getD i

theorem slotOf_eq (hd : Lookup.Distinct t.get?) {id : BlockId} {b : Block}
    (hb : t.get? id = some b) : t.slotOf b.name = id := by
  rw [slotOf, (find?_eq_some_iff hd).mpr ⟨b, hb, rfl⟩]
  rfl

theorem slotIn_eq {id : BlockId} {b : Block} (hb : t.get? id = some b) :
    slotIn t u id = u.slotOf b.name := by
  rw [slotIn, Lookup.nameAt, hb]
  rfl

theorem callIn_eq {i : CallId} {c : Call} (hc : t.calls.get? i = some c) :
    callIn t u i = u.calls.numberOf c := by
  rw [callIn, hc]
  rfl

theorem eq_map_slotOf (hd : Lookup.Distinct t.get?) {ids : List BlockId} {names : List Text}
    (h : ids.map (Lookup.nameAt t.get?) = names.map some) : ids = names.map t.slotOf := by
  induction ids generalizing names with
  | nil =>
    cases names with
    | nil => rfl
    | cons n names => cases h
  | cons id ids ih =>
    cases names with
    | nil => cases h
    | cons n names =>
      rw [List.map_cons, List.map_cons, List.cons.injEq] at h
      obtain ⟨b, hb, rfl⟩ := Lookup.nameAt_eq_some.mp h.1
      rw [List.map_cons, slotOf_eq hd hb, ← ih h.2]

structure Paired (Q : Section → Section → Prop) (t u : Tree) (S S' : List Section) : Prop where
  left : t.Sound
  right : u.Sound
  reads_left : t.Reads S
  reads_right : u.Reads S'
  forth : ∀ s ∈ S, ∃ s' ∈ S', Q s s'
  back : ∀ s' ∈ S', ∃ s ∈ S, Q s s'
  order : ∀ s s', Q s s' → s.Reorders s'
  clear : ∀ s ∈ S, s.Clear

structure Matched (Q : Section → Section → Prop) (t u : Tree) (id : BlockId) (b c : Block)
    (s s' : Section) : Prop where
  right : u.get? (slotIn t u id) = some c
  pair : Q s s'
  sections : s.Reorders s'
  shown : Lookup.Shows u.get? u.calls.numberOf (slotIn t u id) s'
  renamed : (b.rename (slotIn t u) (callIn t u)).Accords u.calls.numberOf s
  other : c.Accords u.calls.numberOf s'
  children_left : b.children.map (slotIn t u) = s.children.map u.slotOf
  children_right : c.children = s'.children.map u.slotOf

namespace Paired

variable {Q : Section → Section → Prop} (h : Paired Q t u S S')
include h

theorem knows_iff (c : Call) : t.calls.Knows c ↔ u.calls.Knows c := by
  rw [h.reads_left.calls, h.reads_right.calls]
  constructor
  · rintro ⟨s, hs, hc⟩
    obtain ⟨s', hs', hq⟩ := h.forth s hs
    exact ⟨s', hs', (h.order s s' hq).calls.mem_iff.mpr hc⟩
  · rintro ⟨s', hs', hc⟩
    obtain ⟨s, hs, hq⟩ := h.back s' hs'
    exact ⟨s, hs, (h.order s s' hq).calls.mem_iff.mp hc⟩

theorem matched {id : BlockId} {b : Block} (hb : t.get? id = some b) :
    ∃ c s s', Matched Q t u id b c s s' := by
  obtain ⟨s, hs, hsn, b', hb', hacc, hchildren⟩ := h.reads_left.blocks.shows h.left.distinct hb
  rw [hb, Option.some.injEq] at hb'
  subst hb'
  obtain ⟨s', hs', hq⟩ := h.forth s hs
  have hr := h.order s s' hq
  obtain ⟨x, c, hc, hacc', hchildren'⟩ := h.reads_right.blocks.shown s' hs'
  have hcn : c.name = b.name := hacc'.name.trans (hr.name.trans hsn)
  have hslot : slotIn t u id = x := by
    rw [slotIn_eq hb, ← hcn]
    exact slotOf_eq h.right.distinct hc
  refine ⟨c, s, s', ⟨hslot ▸ hc, hq, hr, hslot ▸ ⟨c, hc, hacc', hchildren'⟩,
    hacc.rename (h.clear s hs) ?_, hacc', ?_, eq_map_slotOf h.right.distinct hchildren'⟩⟩
  · intro call hcall
    exact callIn_eq (CallTable.get?_numberOf ((h.reads_left.calls call).mpr ⟨s, hs, hcall⟩))
  · rw [eq_map_slotOf h.left.distinct hchildren, List.map_map]
    refine List.map_congr_left ?_
    intro n hn
    have hmem : some n ∈ b.children.map (Lookup.nameAt t.get?) :=
      hchildren ▸ List.mem_map_of_mem hn
    obtain ⟨y, -, hy⟩ := List.mem_map.mp hmem
    obtain ⟨d, hd, rfl⟩ := Lookup.nameAt_eq_some.mp hy
    change slotIn t u (t.slotOf d.name) = u.slotOf d.name
    rw [slotOf_eq h.left.distinct hd, slotIn_eq hd]

theorem slotIn_root : slotIn t u rootId = rootId := by
  obtain ⟨b, hb, hbn⟩ := h.left.root_name
  obtain ⟨c, hc, hcn⟩ := h.right.root_name
  rw [slotIn_eq hb, hbn, ← hcn]
  exact slotOf_eq h.right.distinct hc

theorem parent {id : BlockId} {b c : Block} (hb : t.get? id = some b)
    (hc : u.get? (slotIn t u id) = some c) : c.parent = b.parent.map (slotIn t u) := by
  cases hp : b.parent with
  | none =>
    rw [h.left.tree.eq_root_of_orphan hb hp, h.slotIn_root] at hc
    obtain ⟨d, hd, hdp⟩ := h.right.tree.top
    rw [hd, Option.some.injEq] at hc
    rw [← hc, hdp]
    rfl
  | some p =>
    obtain ⟨q, hq⟩ := h.left.tree.parent_live id b p hb hp
    obtain ⟨e, s, s', hm⟩ := h.matched hq
    have hleft : slotIn t u id ∈ q.children.map (slotIn t u) :=
      List.mem_map_of_mem (h.left.tree.mem_children hq hb hp)
    rw [hm.children_left] at hleft
    have hright : slotIn t u id ∈ e.children := by
      rw [hm.children_right]
      exact (hm.sections.children.map u.slotOf).mem_iff.mpr hleft
    obtain ⟨d, hd, hdp⟩ := h.right.tree.child_live hm.right hright
    rw [hd, Option.some.injEq] at hc
    rw [← hc, hdp]
    rfl

theorem renames {R : Block → Block → Prop}
    (hR : ∀ id b c s s', Matched Q t u id b c s s' →
      c.parent = b.parent.map (slotIn t u) → R (b.rename (slotIn t u) (callIn t u)) c) :
    Renames R t u (slotIn t u) (callIn t u) where
  root := h.slotIn_root
  block := by
    intro id b hb
    obtain ⟨c, s, s', hm⟩ := h.matched hb
    exact ⟨c, hm.right, hR id b c s s' hm (h.parent hb hm.right)⟩
  slot_inj := by
    intro i j ⟨b, hb⟩ ⟨d, hd⟩ he
    obtain ⟨c, s, s', hm⟩ := h.matched hb
    obtain ⟨c', r, r', hm'⟩ := h.matched hd
    have hcc := hm.right
    rw [he, hm'.right, Option.some.injEq] at hcc
    refine h.left.distinct i j b d hb hd ?_
    exact hm.renamed.name.trans (hm.sections.name.symm.trans (hm.other.name.symm.trans
      (hcc ▸ hm'.other.name.trans (hm'.sections.name.trans hm'.renamed.name.symm))))
  slot_onto := by
    intro j ⟨c, hc⟩
    obtain ⟨s', hs', hn'⟩ := h.reads_right.blocks.only j c hc
    obtain ⟨s, hs, hq⟩ := h.back s' hs'
    obtain ⟨i, b, hb, hacc, -⟩ := h.reads_left.blocks.shown s hs
    refine ⟨i, ⟨b, hb⟩, ?_⟩
    rw [slotIn_eq hb, hacc.name, ← (h.order s s' hq).name, hn']
    exact slotOf_eq h.right.distinct hc
  call := by
    intro i c hc
    rw [callIn_eq hc]
    exact CallTable.get?_numberOf ((h.knows_iff c).mp ⟨i, hc⟩)
  call_inj := by
    intro i j c d hc hd he
    rw [callIn_eq hc, callIn_eq hd] at he
    have hcd := CallTable.numberOf_inj ((h.knows_iff c).mp ⟨i, hc⟩) ((h.knows_iff d).mp ⟨j, hd⟩) he
    exact h.left.calls i j c hc (hcd ▸ hd)
  call_onto := by
    intro j c hc
    obtain ⟨i, hi⟩ := (h.knows_iff c).mpr ⟨j, hc⟩
    exact ⟨i, hi, (callIn_eq hi).trans (CallTable.numberOf_eq h.right.calls hc)⟩

end Paired

theorem Paired.alikeUpToOrder (h : Paired Section.Reorders t u S S') : t.AlikeUpToOrder u := by
  refine ⟨_, _, h.renames ?_⟩
  intro id b c s s' hm hp
  exact {
    name := hm.other.name.trans (hm.sections.name.trans hm.renamed.name.symm)
    content := by rw [hm.other.content, hm.renamed.content, hm.sections.parts]
    vars := by
      rw [hm.other.vars, hm.renamed.vars]
      exact hm.sections.vars
    calls := by
      rw [hm.other.calls, hm.renamed.calls]
      exact hm.sections.calls.map _
    children := by
      change c.children.Perm (b.children.map (slotIn t u))
      rw [hm.children_left, hm.children_right]
      exact hm.sections.children.map u.slotOf
    parent := hp }

theorem alike_of_reads (ht : t.Sound) (hu : u.Sound) (hr : t.Reads S) (hr' : u.Reads S)
    (hc : ∀ s ∈ S, s.Clear) : t.Alike u := by
  have h : Paired Eq t u S S := ⟨ht, hu, hr, hr', fun s hs => ⟨s, hs, rfl⟩,
    fun s hs => ⟨s, hs, rfl⟩, fun s s' he => he ▸ .refl s, hc⟩
  refine ⟨_, _, h.renames ?_⟩
  intro id b c s s' hm hp
  cases hm.pair
  exact Block.ext (hm.renamed.name.trans hm.other.name.symm)
    (hm.renamed.content.trans hm.other.content.symm) (hm.renamed.vars.trans hm.other.vars.symm)
    (hm.renamed.calls.trans hm.other.calls.symm) (hm.children_left.trans hm.children_right.symm)
    hp.symm

theorem Paired.alikeButLast {n : Text} {x : BlockId}
    (h : Paired (fun s s' => s = s'.lastly n) t u S S') (hx : u.find? n = some x) :
    t.AlikeButLast n u := by
  have hslot : u.slotOf n = x := by rw [slotOf, hx]; rfl
  refine ⟨x, _, _, hx, h.renames ?_⟩
  intro id b c s s' hm hp
  have hpair := hm.pair
  subst hpair
  -- Slots tell the names of the children, so moving the slot moves the name.
  have hinj : ∀ m ∈ s'.children, u.slotOf m = u.slotOf n → m = n := by
    intro m hmem he
    obtain ⟨d, hd, -, hchildren⟩ := hm.shown
    have hm' : some m ∈ d.children.map (Lookup.nameAt u.get?) :=
      hchildren ▸ List.mem_map_of_mem hmem
    obtain ⟨y, -, hy⟩ := List.mem_map.mp hm'
    obtain ⟨e, hy', rfl⟩ := Lookup.nameAt_eq_some.mp hy
    obtain ⟨e', hx', hn'⟩ := get?_of_find? hx
    rw [slotOf_eq h.right.distinct hy', hslot] at he
    rw [he, hx', Option.some.injEq] at hy'
    exact (congrArg _ hy').symm.trans hn'
  have hkids : b.children.map (slotIn t u) = (c.lastly x).children := by
    rw [hm.children_left, Section.lastly, Block.lastly, hm.children_right, map_moveLast hinj, hslot]
  exact Block.ext (hm.renamed.name.trans hm.other.name.symm)
    (hm.renamed.content.trans hm.other.content.symm) (hm.renamed.vars.trans hm.other.vars.symm)
    (hm.renamed.calls.trans hm.other.calls.symm) hkids hp.symm

theorem AlikeButLast.alike {n : Text} (h : t.AlikeButLast n u) (hlast : u.StandsLast n)
    (hn : ∀ p b, u.get? p = some b → b.children.Nodup) : t.Alike u := by
  obtain ⟨x, f, g, hx, hr⟩ := h
  refine ⟨f, g, ⟨hr.root, ?_, hr.slot_inj, hr.slot_onto, hr.call, hr.call_inj, hr.call_onto⟩⟩
  intro id b hb
  obtain ⟨c, hc, hbc⟩ := hr.block id b hb
  refine ⟨c, hc, hbc.trans ?_⟩
  rw [Block.lastly]
  by_cases hm : x ∈ c.children
  · rw [moveLast_of_getLast? (hn _ c hc) (hlast x _ c hx hc hm)]
  · rw [moveLast_of_not_mem hm]

theorem AlikeUpToOrder.root_content {b : Block} (h : t.AlikeUpToOrder u)
    (hb : t.get? rootId = some b) (hc : b.calls = []) :
    (u.get? rootId).map (·.content) = some b.content := by
  obtain ⟨f, g, hr⟩ := h
  obtain ⟨c, hget, horder⟩ := hr.block rootId b hb
  have hmemo : b.renamedMemo g = fun _ => none := by
    funext name
    rw [Block.renamedMemo, hc]
    rfl
  have hsame : (b.rename f g).content = b.content := by
    rw [Block.rename, hmemo, Page.splice_none]
  rw [hr.root] at hget
  rw [hget, Option.map_some, horder.content, hsame]

structure Lists where
  children : List (Option Text)
  vars : List Text
  calls : List (Option Call)
  deriving DecidableEq

def rootLists (t : Tree) : Option Lists :=
  (t.get? rootId).map fun b =>
    ⟨b.children.map (Lookup.nameAt t.get?), b.vars, b.calls.map t.calls.get?⟩

theorem Alike.rootLists_eq (h : t.Alike u) (ht : t.Sound) : u.rootLists = t.rootLists := by
  obtain ⟨f, g, hr⟩ := h
  obtain ⟨b, hb, -⟩ := ht.root_name
  obtain ⟨c, hget, heq⟩ := hr.block rootId b hb
  rw [hr.root] at hget
  have hkids : c.children.map (Lookup.nameAt u.get?) = b.children.map (Lookup.nameAt t.get?) := by
    rw [← heq, Block.rename, List.map_map]
    refine List.map_congr_left ?_
    intro x hx
    obtain ⟨d, hd, -⟩ := ht.tree.child_live hb hx
    obtain ⟨c', hc', hcc⟩ := hr.block x d hd
    rw [Function.comp_apply, Lookup.nameAt, Lookup.nameAt, hd, hc', ← hcc]
    rfl
  have hcalls : c.calls.map u.calls.get? = b.calls.map t.calls.get? := by
    rw [← heq, Block.rename, List.map_map]
    refine List.map_congr_left ?_
    intro i hi
    obtain ⟨call, hcall⟩ := ht.known rootId b hb i hi
    rw [Function.comp_apply, hcall, hr.call i call hcall]
  rw [rootLists, rootLists, hget, hb, Option.map_some, Option.map_some, hkids, hcalls, ← heq]
  rfl

end Tree

end BlockTemplate
