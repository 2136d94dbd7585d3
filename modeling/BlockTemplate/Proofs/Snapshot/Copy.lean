import BlockTemplate.Proofs.Snapshot.Restore
import BlockTemplate.Proofs.Snapshot.Take

/-!
# Restoring what was saved

The blocks of a snapshot are restored in the order in which they are reached. The blocks restored so
far copy blocks of the tree that the snapshot was taken of, and those that wait are their children.
-/

namespace BlockTemplate.Snapshot

open Lookup (Reach)

variable {cs : List (Text × Call)} {table : CallTable} {ids : List CallId} {names : Renaming}

theorem retains_internAll (cs : List (Text × Call)) (table : CallTable) (ids : List CallId)
    (names : Renaming) : table.Retains (internAll cs table ids names).2.1 := by
  induction cs generalizing table ids names with
  | nil => exact .refl table
  | cons e cs ih =>
    obtain ⟨old, c⟩ := e
    exact (table.retains_intern c).trans (ih _ _ _)

theorem nodup_internAll (h : ids.Nodup) (cs : List (Text × Call)) (table : CallTable)
    (names : Renaming) : (internAll cs table ids names).1.Nodup := by
  induction cs generalizing table ids names with
  | nil => exact h
  | cons e cs ih =>
    obtain ⟨old, c⟩ := e
    exact ih (nodup_addNew h _) _ _

theorem internAll_of_not_mem {x : Text} (hx : x ∉ cs.map (·.1)) (table : CallTable)
    (ids : List CallId) (names : Renaming) :
    (internAll cs table ids names).2.2.get? x = names.get? x := by
  induction cs generalizing table ids names with
  | nil => rfl
  | cons e cs ih =>
    obtain ⟨old, c⟩ := e
    rw [List.map_cons, List.mem_cons, not_or] at hx
    exact (ih hx.2 _ _ _).trans (Dict.get?_insert_ne _ _ hx.1)

theorem internAll_named (hcs : (cs.map (·.1)).Nodup) (table : CallTable) (ids : List CallId)
    (names : Renaming) {e : Text × Call} (he : e ∈ cs) :
    ∃ id, (internAll cs table ids names).2.1.find? e.2 = some id ∧
      (internAll cs table ids names).2.2.get? e.1 = some id.memo := by
  induction cs generalizing table ids names with
  | nil => cases he
  | cons e' cs ih =>
    obtain ⟨old, c⟩ := e'
    rw [List.map_cons, List.nodup_cons] at hcs
    rcases List.mem_cons.mp he with rfl | he
    · exact ⟨_, retains_internAll cs _ _ _ _ _ (table.find?_intern_self c),
        (internAll_of_not_mem hcs.1 _ _ _).trans (Dict.get?_insert_self _ _ _)⟩
    · exact ih hcs.2 _ _ _ he

theorem mem_internAll (cs : List (Text × Call)) (table : CallTable) (ids : List CallId)
    (names : Renaming) (id : CallId) :
    id ∈ (internAll cs table ids names).1 ↔
      id ∈ ids ∨ ∃ e ∈ cs, (internAll cs table ids names).2.1.find? e.2 = some id := by
  induction cs generalizing table ids names with
  | nil => simp [internAll]
  | cons e cs ih =>
    obtain ⟨old, c⟩ := e
    have hc := retains_internAll cs (table.intern c).2 (addNew ids (table.intern c).1)
      (names.insert old (table.intern c).1.memo) c _ (table.find?_intern_self c)
    rw [internAll]
    dsimp only
    rw [ih, mem_addNew, or_assoc]
    refine or_congr_right ?_
    constructor
    · rintro (rfl | ⟨e, he, hid⟩)
      · exact ⟨_, List.mem_cons_self, hc⟩
      · exact ⟨e, List.mem_cons_of_mem _ he, hid⟩
    · rintro ⟨e, he, hid⟩
      rcases List.mem_cons.mp he with rfl | he
      · exact .inl (Option.some.inj (hid.symm.trans hc))
      · exact .inr ⟨e, he, hid⟩

theorem allNew_iff {names seen : List Text} :
    allNew names seen = true ↔ names.Nodup ∧ ∀ x ∈ names, x ∉ seen := by
  induction names generalizing seen with
  | nil => exact ⟨fun _ => ⟨List.nodup_nil, fun x hx => absurd hx List.not_mem_nil⟩, fun _ => rfl⟩
  | cons n names ih =>
    change (decide (n ∉ seen) && allNew names (n :: seen)) = true ↔ _
    rw [Bool.and_eq_true, ih, decide_eq_true_eq, List.nodup_cons]
    constructor
    · rintro ⟨hn, hnodup, hnew⟩
      refine ⟨⟨fun hm => hnew n hm List.mem_cons_self, hnodup⟩, ?_⟩
      intro x hx
      rcases List.mem_cons.mp hx with rfl | hx
      · exact hn
      · exact fun hm => hnew x hx (List.mem_cons_of_mem n hm)
    · rintro ⟨⟨hn, hnodup⟩, hnew⟩
      refine ⟨hnew n List.mem_cons_self, hnodup, ?_⟩
      intro x hx hm
      rcases List.mem_cons.mp hm with rfl | hm
      · exact hn hx
      · exact hnew x (List.mem_cons_of_mem n hx) hm

section Copying

variable {t : Tree} {top : BlockId} {b₀ : Block} {new : Renaming}

def savedNameAt (t : Tree) (topName : Text) (id : BlockId) : Option Text :=
  (t.get? id).map fun b => savedName topName b.name

theorem savedNameAt_top (hb₀ : t.get? top = some b₀) :
    savedNameAt t b₀.name top = some rootName := by
  rw [savedNameAt, hb₀, Option.map_some, savedName, if_pos rfl]

def renumbered (new : Renaming) (vars : List Text) : List Text :=
  (vars.map fun v => (new.get? v).getD v).foldl addNew []

def Covers (t : Tree) (top : BlockId) (id : CallId) : Prop :=
  ∃ x b, Reach t.get? top x ∧ t.get? x = some b ∧ id ∈ b.calls

def Told (t : Tree) (r : Restored) (id i : CallId) : Prop :=
  ∃ c, t.calls.get? id = some c ∧ r.table.find? c = some i ∧ r.names.get? id.memo = some i.memo

structure Copies (t : Tree) (topName : Text) (new : Renaming) (all : List BlockId) (r : Restored)
    (b g : Block) : Prop where
  name : g.name = savedName topName b.name
  content : g.content = b.content
  vars : g.vars = renumbered new b.vars
  nodup : g.calls.Nodup
  told : ∀ id ∈ b.calls, ∃ i ∈ g.calls, Told t r id i
  calls : ∀ i ∈ g.calls, ∃ id ∈ b.calls, Told t r id i
  children : g.children.map (fun i => all[i]?) = b.children.map some

/-- Copies were made of the blocks in `done`, and those in `todo` wait. -/
structure Copying (t : Tree) (top : BlockId) (topName : Text) (new : Renaming)
    (done todo : List BlockId) (seen : List Text) (r : Restored) : Prop where
  first : (done ++ todo).head? = some top
  nodup : (done ++ todo).Nodup
  under : ∀ x ∈ done ++ todo, Reach t.get? top x
  listed : ∀ p ∈ done, ∀ b, t.get? p = some b → ∀ c ∈ b.children, c ∈ done ++ todo
  parent : ∀ c ∈ done ++ todo, c = top ∨ ∃ p ∈ done, ∃ b, t.get? p = some b ∧ c ∈ b.children
  seen : ∀ x ∈ seen, ∃ id ∈ done ++ todo, savedNameAt t topName id = some x
  blocks : List.Forall₂ (fun p g => ∃ b, t.get? p = some b ∧
    Copies t topName new (done ++ todo) r b g) done r.blocks
  old : ∀ x, (∀ id, Covers t top id → x ≠ id.memo) → r.names.get? x = new.get? x

variable {done todo all : List BlockId} {seen : List Text} {r r' : Restored} {p : BlockId}
  {b g : Block} {topName : Text}

theorem Copies.mono (h : Copies t topName new all r b g)
    (hr : ∀ id i, Told t r id i → Told t r' id i) (more : List BlockId) :
    Copies t topName new (all ++ more) r' b g where
  name := h.name
  content := h.content
  vars := h.vars
  nodup := h.nodup
  told := by
    intro id hid
    obtain ⟨i, hi, htold⟩ := h.told id hid
    exact ⟨i, hi, hr id i htold⟩
  calls := by
    intro i hi
    obtain ⟨id, hid, htold⟩ := h.calls i hi
    exact ⟨id, hid, hr id i htold⟩
  children := by
    rw [← h.children]
    refine List.map_congr_left ?_
    intro i hi
    have hm : all[i]? ∈ b.children.map some := h.children ▸ List.mem_map_of_mem hi
    obtain ⟨x, -, hx⟩ := List.mem_map.mp hm
    have hlt : i < all.length := (List.getElem?_eq_some_iff.mp hx.symm).1
    exact List.getElem?_append_left hlt

theorem Copying.live (hc : Copying t top topName new done todo seen r) (h : t.Sound)
    (hb₀ : t.get? top = some b₀) {x : BlockId} (hx : x ∈ done ++ todo) : ∃ d, t.get? x = some d :=
  h.tree.reach_live hb₀ (hc.under x hx)

theorem Copying.length_done (hc : Copying t top topName new done todo seen r) :
    r.blocks.length = done.length := hc.blocks.length_eq.symm

theorem Copying.child_new (hc : Copying t top b₀.name new done (p :: todo) seen r) (h : t.Sound)
    (hp : t.get? p = some b) {c : BlockId} (hcb : c ∈ b.children) : c ∉ done ++ p :: todo := by
  intro hm
  have hpm : p ∈ done ++ p :: todo := List.mem_append_right done List.mem_cons_self
  rcases hc.parent c hm with rfl | ⟨q, hq, e, he, hce⟩
  · exact h.tree.acyclic hp hcb (hc.under p hpm)
  · have hqp := h.tree.parent_unique he hp hce hcb
    subst hqp
    have hn := hc.nodup
    rw [List.nodup_append] at hn
    exact hn.2.2 q hq q List.mem_cons_self rfl

theorem filterMap_savedNameAt (t : Tree) (topName : Text) {ids : List BlockId}
    (hl : ∀ c ∈ ids, ∃ d, t.get? c = some d) :
    ids.filterMap (savedNameAt t topName) =
      ids.map fun c => ((t.get? c).map fun b => savedName topName b.name).getD [] := by
  rw [← List.filterMap_eq_map]
  refine List.filterMap_congr ?_
  intro c hc
  obtain ⟨d, hd⟩ := hl c hc
  simp [savedNameAt, hd]

theorem length_filterMap_savedNameAt {t : Tree} {topName : Text} {ids : List BlockId}
    (hl : ∀ c ∈ ids, ∃ d, t.get? c = some d) :
    (ids.filterMap (savedNameAt t topName)).length = ids.length := by
  rw [filterMap_savedNameAt t topName hl, List.length_map]

theorem Copying.allNew_children (hc : Copying t top b₀.name new done (p :: todo) seen r)
    (h : t.Sound) (hb₀ : t.get? top = some b₀) (hp : t.get? p = some b) :
    allNew (b.children.filterMap (savedNameAt t b₀.name)) seen = true := by
  have hpr : Reach t.get? top p := hc.under p (List.mem_append_right done List.mem_cons_self)
  have hlive : ∀ c ∈ b.children, ∃ d, t.get? c = some d := by
    intro c hcb
    obtain ⟨d, hd, -⟩ := h.tree.child_live hp hcb
    exact ⟨d, hd⟩
  rw [allNew_iff]
  constructor
  · rw [filterMap_savedNameAt t b₀.name hlive]
    refine List.Nodup.map_on ?_ (h.tree.children_nodup p b hp)
    intro c hcb c' hcb' he
    obtain ⟨d, hd⟩ := hlive c hcb
    obtain ⟨d', hd'⟩ := hlive c' hcb'
    rw [hd, hd'] at he
    exact savedName_inj h hb₀ (.child hpr hp hcb) hd (.child hpr hp hcb') hd' he
  · intro x hx hseen
    obtain ⟨c, hcb, hcx⟩ := List.mem_filterMap.mp hx
    obtain ⟨d, hd, hdx⟩ := Option.map_eq_some_iff.mp hcx
    obtain ⟨i, hi, hix⟩ := hc.seen x hseen
    obtain ⟨e, he, hex⟩ := Option.map_eq_some_iff.mp hix
    have hci := savedName_inj h hb₀ (.child hpr hp hcb) hd (hc.under i hi) he (hdx.trans hex.symm)
    exact hc.child_new h hp hcb (hci ▸ hi)

def copyOf (t : Tree) (topName : Text) (b : Block) (r : Restored) (first : Nat) : Restored :=
  let (ids, table, names) := internAll (savedCalls t b).entries r.table [] r.names
  ⟨r.blocks ++ [{
      name := savedName topName b.name
      content := b.content
      vars := (b.vars.map fun v => (names.get? v).getD v).foldl addNew []
      calls := ids
      children := List.range' first b.children.length }], table, names⟩

theorem nodup_savedCalls (t : Tree) (b : Block) :
    ((savedCalls t b).entries.map (·.1)).Nodup := by
  have hs := (savedCalls t b).sorted
  rw [List.Nodup, List.pairwise_map]
  refine hs.imp ?_
  intro x y hxy he
  rw [he, Ranked.irrefl] at hxy
  cases hxy

theorem not_mem_savedCalls {x : Text} (hx : ∀ id ∈ b.calls, x ≠ id.memo) :
    x ∉ (savedCalls t b).entries.map (·.1) := by
  intro hm
  obtain ⟨e, he, rfl⟩ := List.mem_map.mp hm
  obtain ⟨i, hi, -, hname⟩ := (get?_savedCalls t b).mp (Dict.get?_eq_some_iff.mpr he)
  exact hx i hi hname

theorem told_copyOf (topName : Text) (r : Restored) (first : Nat) {id : CallId} {c : Call}
    (hid : id ∈ b.calls) (hc : t.calls.get? id = some c) :
    ∃ i, Told t (copyOf t topName b r first) id i := by
  have hmem : (id.memo, c) ∈ (savedCalls t b).entries :=
    Dict.get?_eq_some_iff.mp ((get?_savedCalls t b).mpr ⟨id, hid, hc, rfl⟩)
  obtain ⟨i, hfind, hname⟩ :=
    internAll_named (nodup_savedCalls t b) r.table [] r.names hmem
  exact ⟨i, c, hc, hfind, hname⟩

theorem Told.copyOf {id i : CallId} (h : Told t r id i) (topName : Text) (b : Block)
    (first : Nat) : Told t (Snapshot.copyOf t topName b r first) id i := by
  obtain ⟨c, hc, hfind, hname⟩ := h
  have hstays := retains_internAll (savedCalls t b).entries r.table [] r.names c i hfind
  by_cases hid : id ∈ b.calls
  · obtain ⟨i', c', hc', hfind', hname'⟩ := told_copyOf topName r first hid hc
    rw [hc, Option.some.injEq] at hc'
    subst hc'
    have hi : i' = i := Option.some.inj (hfind'.symm.trans hstays)
    exact ⟨c, hc, hstays, hi ▸ hname'⟩
  · have hnew : id.memo ∉ (savedCalls t b).entries.map (·.1) :=
      not_mem_savedCalls fun j hj he => hid (CallId.memo_inj he ▸ hj)
    exact ⟨c, hc, hstays, (internAll_of_not_mem hnew _ _ _).trans hname⟩

theorem map_getElem?_range' (l m : List BlockId) :
    (List.range' l.length m.length).map (fun i => (l ++ m)[i]?) = m.map some := by
  refine List.ext_getElem (by simp) ?_
  intro j hj hj'
  rw [List.length_map] at hj'
  simp [hj']

theorem copies_copyOf (hknown : ∀ id ∈ b.calls, ∃ c, t.calls.get? id = some c)
    (hvars : ∀ v ∈ b.vars, ∀ id ∈ b.calls, v ≠ id.memo)
    (hold : ∀ v ∈ b.vars, r.names.get? v = new.get? v) (all : List BlockId) :
    ∃ g, (copyOf t topName b r all.length).blocks = r.blocks ++ [g] ∧
      Copies t topName new (all ++ b.children) (copyOf t topName b r all.length) b g := by
  have hmem := mem_internAll (savedCalls t b).entries r.table [] r.names
  refine ⟨_, rfl, rfl, rfl, ?_, nodup_internAll List.nodup_nil _ _ _, ?_, ?_,
    map_getElem?_range' all b.children⟩
  · refine congrArg (List.foldl addNew []) (List.map_congr_left ?_)
    intro v hv
    rw [internAll_of_not_mem (not_mem_savedCalls (hvars v hv)), hold v hv]
  · intro id hid
    obtain ⟨c, hc⟩ := hknown id hid
    obtain ⟨i, htold⟩ := told_copyOf topName r all.length hid hc
    have ⟨c', hc', hfind, _⟩ := htold
    have hentry : (id.memo, c') ∈ (savedCalls t b).entries :=
      Dict.get?_eq_some_iff.mp ((get?_savedCalls t b).mpr ⟨id, hid, hc', rfl⟩)
    exact ⟨i, (hmem i).mpr (.inr ⟨_, hentry, hfind⟩), htold⟩
  · intro i hi
    obtain ⟨⟨name, c⟩, he, hfind⟩ := ((hmem i).mp hi).resolve_left List.not_mem_nil
    obtain ⟨id, hid, hc, -⟩ := (get?_savedCalls t b).mp (Dict.get?_eq_some_iff.mpr he)
    obtain ⟨j, htold⟩ := told_copyOf topName r all.length hid hc
    have ⟨c', hc', hfind', _⟩ := htold
    rw [hc, Option.some.injEq] at hc'
    subst hc'
    have hj : j = i := Option.some.inj (hfind'.symm.trans hfind)
    exact ⟨id, hid, hj ▸ htold⟩

theorem Copying.step (hc : Copying t top b₀.name new done (p :: todo) seen r) (h : t.Sound)
    (hp : t.get? p = some b) (hvars : ∀ v ∈ b.vars, ∀ id, Covers t top id → v ≠ id.memo) :
    Copying t top b₀.name new (done ++ [p]) (todo ++ b.children)
      (b.children.filterMap (savedNameAt t b₀.name) ++ seen)
      (copyOf t b₀.name b r (done ++ p :: todo).length) := by
  -- To have a turn moves `p` behind the copied blocks: all that was met before stays as it was.
  have hall : (done ++ [p]) ++ (todo ++ b.children) = (done ++ p :: todo) ++ b.children := by simp
  have hpr : Reach t.get? top p := hc.under p (List.mem_append_right done List.mem_cons_self)
  have hcovers : ∀ id ∈ b.calls, Covers t top id := fun id hid => ⟨p, b, hpr, hp, hid⟩
  obtain ⟨g, hg, hcopy⟩ : ∃ g, (copyOf t b₀.name b r (done ++ p :: todo).length).blocks =
        r.blocks ++ [g] ∧
      Copies t b₀.name new ((done ++ p :: todo) ++ b.children)
        (copyOf t b₀.name b r (done ++ p :: todo).length) b g :=
    copies_copyOf (h.known p b hp) (fun v hv id hid => hvars v hv id (hcovers id hid))
      (fun v hv => hc.old v (hvars v hv)) (done ++ p :: todo)
  exact {
    first := by
      rw [hall, List.head?_append, hc.first]
      rfl
    nodup := by
      rw [hall]
      refine hc.nodup.append (h.tree.children_nodup p b hp) ?_
      intro x hx hxb
      exact hc.child_new h hp hxb hx
    under := by
      intro x hx
      rw [hall] at hx
      rcases List.mem_append.mp hx with hx | hx
      · exact hc.under x hx
      · exact .child hpr hp hx
    listed := by
      intro q hq e he c hce
      rw [hall]
      rcases List.mem_append.mp hq with hq | hq
      · exact List.mem_append_left _ (hc.listed q hq e he c hce)
      · rw [List.mem_singleton] at hq
        rw [hq, hp, Option.some.injEq] at he
        exact List.mem_append_right _ (he ▸ hce)
    parent := by
      intro c hcm
      rw [hall] at hcm
      rcases List.mem_append.mp hcm with hcm | hcm
      · rcases hc.parent c hcm with he | ⟨q, hq, e, he, hce⟩
        · exact .inl he
        · exact .inr ⟨q, List.mem_append_left _ hq, e, he, hce⟩
      · exact .inr ⟨p, List.mem_append_right _ (List.mem_singleton_self p), b, hp, hcm⟩
    seen := by
      intro x hx
      rw [hall]
      rcases List.mem_append.mp hx with hx | hx
      · obtain ⟨c, hcb, hcx⟩ := List.mem_filterMap.mp hx
        exact ⟨c, List.mem_append_right _ hcb, hcx⟩
      · obtain ⟨i, hi, hix⟩ := hc.seen x hx
        exact ⟨i, List.mem_append_left _ hi, hix⟩
    blocks := by
      rw [hall, hg]
      refine List.rel_append ?_ (.cons ⟨b, hp, hcopy⟩ .nil)
      refine hc.blocks.imp ?_
      rintro q e ⟨d, hd, hde⟩
      exact ⟨d, hd, hde.mono (fun id i htold => htold.copyOf b₀.name b _) b.children⟩
    old := by
      intro x hx
      have hnew : x ∉ (savedCalls t b).entries.map (·.1) :=
        not_mem_savedCalls fun id hid => hx id (hcovers id hid)
      exact (internAll_of_not_mem hnew _ _ _).trans (hc.old x hx) }

theorem Copying.length_le (hc : Copying t top topName new done todo seen r) (h : t.Sound)
    (hb₀ : t.get? top = some b₀) : (done ++ todo).length ≤ (t.preorder top).length := by
  have hsub : done ++ todo ⊆ (t.preorder top).map (·.1) := by
    intro x hx
    obtain ⟨d, hd⟩ := hc.live h hb₀ hx
    exact List.mem_map.mpr
      ⟨(x, d), (Tree.mem_preorder_iff h.tree hb₀).mpr ⟨hc.under x hx, hd⟩, rfl⟩
  have hle := hc.nodup.length_le_of_subset hsub
  rw [List.length_map] at hle
  exact hle

theorem restoreBlocks_taken {s : Snapshot} (h : t.Sound) (hb₀ : t.get? top = some b₀)
    (hs : ∀ x d, Reach t.get? top x → t.get? x = some d → s.Holds t b₀.name d)
    (hvars : ∀ x d, Reach t.get? top x → t.get? x = some d → ∀ v ∈ d.vars, ∀ id,
      Covers t top id → v ≠ id.memo) (steps : Nat)
    (hc : Copying t top b₀.name new done todo seen r)
    (hsteps : (t.preorder top).length ≤ steps + done.length) :
    ∃ all r' seen', restoreBlocks s steps (todo.filterMap (savedNameAt t b₀.name)) seen r =
      (some r', r'.table) ∧ Copying t top b₀.name new all [] seen' r' := by
  induction steps generalizing done todo seen r with
  -- There are as many steps as blocks that have no copy, so none waits when no step is left.
  | zero =>
    have hle := hc.length_le h hb₀
    rw [List.length_append] at hle
    have htodo : todo = [] := List.eq_nil_of_length_eq_zero (by omega)
    subst htodo
    exact ⟨done, r, seen, rfl, hc⟩
  | succ steps ih =>
    cases todo with
    | nil => exact ⟨done, r, seen, rfl, hc⟩
    | cons p todo =>
      have hpm : p ∈ done ++ p :: todo := List.mem_append_right done List.mem_cons_self
      obtain ⟨b, hp⟩ := hc.live h hb₀ hpm
      have hholds := hs p b (hc.under p hpm) hp
      have hname : savedNameAt t b₀.name p = some (savedName b₀.name b.name) := by
        rw [savedNameAt, hp]
        rfl
      have hstep := hc.step h hp (hvars p b (hc.under p hpm) hp)
      obtain ⟨all, r', seen', hrun, hfin⟩ := ih hstep (by
        rw [List.length_append, List.length_singleton]
        omega)
      refine ⟨all, r', seen', ?_, hfin⟩
      have hchildren : s.children.get? (savedName b₀.name b.name) =
          some (b.children.filterMap (savedNameAt t b₀.name)) := hholds.children
      have hnew := hc.allNew_children h hb₀ hp
      have hwait : (todo.filterMap (savedNameAt t b₀.name)).length = todo.length := by
        refine length_filterMap_savedNameAt ?_
        intro x hx
        exact hc.live h hb₀ (List.mem_append_right done (List.mem_cons_of_mem p hx))
      have hlen : (b.children.filterMap (savedNameAt t b₀.name)).length = b.children.length := by
        refine length_filterMap_savedNameAt ?_
        intro c hcb
        obtain ⟨d, hd, -⟩ := h.tree.child_live hp hcb
        exact ⟨d, hd⟩
      have hfirst : r.blocks.length + 1 + todo.length = (done ++ p :: todo).length := by
        rw [hc.length_done, List.length_append, List.length_cons]
        omega
      rw [List.filterMap_cons_some hname, restoreBlocks]
      simp only [hholds.content, hchildren, hnew, if_true, hholds.vars, hholds.functions,
        Option.getD_some, hwait, hlen, hfirst]
      rw [List.filterMap_append] at hrun
      exact hrun

theorem copying_start (hb₀ : t.get? top = some b₀) (new : Renaming) (table : CallTable) :
    Copying t top b₀.name new [] [top] [rootName] ⟨[], table, new⟩ where
  first := rfl
  nodup := List.nodup_singleton top
  under := fun x hx => List.mem_singleton.mp hx ▸ .refl
  listed := fun p hp => absurd hp List.not_mem_nil
  parent := fun c hc => .inl (List.mem_singleton.mp hc)
  seen := by
    intro x hx
    rw [List.mem_singleton.mp hx]
    exact ⟨top, List.mem_singleton_self top, savedNameAt_top hb₀⟩
  blocks := .nil
  old := fun x _ => rfl

theorem restore_take (h : t.Sound) (hb₀ : t.get? top = some b₀)
    (hvars : ∀ x d, Reach t.get? top x → t.get? x = some d → ∀ v ∈ d.vars, ∀ id,
      Covers t top id → v ≠ id.memo) (d : Dialect) (name : Text) (table : CallTable) (next : Nat)
    (is : List Inclusion) :
    ∃ all r seen, restore d name table next (take t top is false) =
        (some (nameTop name (Fragment.withParents (r.blocks.map (renameTokens d r.names))),
          (renumber next is ∅).1), r.table) ∧
      Copying t top b₀.name (renumber next is ∅).2 all [] seen r := by
  have hsteps := length_preorder_le h hb₀ is
  obtain ⟨all, r, seen, hrun, hfin⟩ := restoreBlocks_taken h hb₀
    (fun x d hx hl => holds_take h hb₀ is hx hl) hvars
    ((take t top is false).blocks.entries.length + 1)
    (copying_start hb₀ (renumber next is ∅).2 table) (hsteps.trans (Nat.le_succ _))
  refine ⟨all, r, seen, ?_, hfin⟩
  rw [List.filterMap_cons_some (savedNameAt_top hb₀), List.filterMap_nil] at hrun
  rw [restore, inclusions_take h hb₀]
  simp only [hrun]
  rfl

end Copying

end BlockTemplate.Snapshot
