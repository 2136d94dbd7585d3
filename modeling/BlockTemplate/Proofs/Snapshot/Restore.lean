import BlockTemplate.Proofs.Fragment.Compile
import BlockTemplate.Snapshot.Basic

/-!
# Restored fragments

Whatever a snapshot holds, the blocks restored from it make a tree. They are numbered in the order
in which they are reached, so every block has a higher number than its parent.
-/

namespace BlockTemplate.Snapshot

open Lookup (IsTree Relabel)

theorem internAll_spec (cs : List (Text × Call)) (table : CallTable) (ids : List CallId)
    (names : Renaming) (hids : ∀ id ∈ ids, ∃ c, table.get? id = some c) :
    table.Extends (internAll cs table ids names).2.1 ∧
      (table.Distinct → (internAll cs table ids names).2.1.Distinct) ∧
      ∀ id ∈ (internAll cs table ids names).1,
        ∃ c, (internAll cs table ids names).2.1.get? id = some c := by
  induction cs generalizing table ids names with
  | nil => exact ⟨.refl table, id, hids⟩
  | cons e cs ih =>
    obtain ⟨old, c⟩ := e
    have hnew : ∀ id ∈ addNew ids (table.intern c).1, ∃ c', (table.intern c).2.get? id = some c' := by
      intro id hid
      rcases mem_addNew.mp hid with hid | rfl
      · obtain ⟨c', hc'⟩ := hids id hid
        exact ⟨c', table.extends_intern c id c' hc'⟩
      · exact ⟨c, table.get?_intern_self c⟩
    obtain ⟨hg, hd, hk⟩ := ih (table.intern c).2 (addNew ids (table.intern c).1)
      (names.insert old (table.intern c).1.memo) hnew
    rw [internAll]
    exact ⟨(table.extends_intern c).trans hg, fun h => hd (h.intern c), hk⟩

structure Rebuilt (table : CallTable) (waiting : List Text) (r : Restored) : Prop where
  grown : table.Extends r.table
  distinct : table.Distinct → r.table.Distinct
  known : ∀ b ∈ r.blocks, ∀ id ∈ b.calls, ∃ c, r.table.get? id = some c
  listed : r.blocks.flatMap (·.children) =
    List.range' 1 (r.blocks.length + waiting.length - 1)
  later : ∀ (j : Nat) (b : Block) (c : Nat), r.blocks[j]? = some b → c ∈ b.children → j < c

theorem Rebuilt.next {table : CallTable} {name : Text} {waiting children : List Text} {r : Restored}
    (h : Rebuilt table (name :: waiting) r) (content : Text) (vars : List Text)
    (calls : List (Text × Call)) :
    Rebuilt table (waiting ++ children)
      ⟨r.blocks ++ [{
          name := name
          content := content
          vars := vars
          calls := (internAll calls r.table [] r.names).1
          children := List.range' (r.blocks.length + 1 + waiting.length) children.length }],
        (internAll calls r.table [] r.names).2.1, (internAll calls r.table [] r.names).2.2⟩ := by
  obtain ⟨hg, hd, hk⟩ := internAll_spec calls r.table [] r.names (by simp)
  refine ⟨h.grown.trans hg, fun ht => hd (h.distinct ht), ?_, ?_, ?_⟩
  · intro b hb id hid
    rcases List.mem_append.mp hb with hb | hb
    · obtain ⟨c, hc⟩ := h.known b hb id hid
      exact ⟨c, hg id c hc⟩
    · rw [List.mem_singleton] at hb
      subst hb
      exact hk id hid
  · have hlen : r.blocks.length + (name :: waiting).length - 1 = r.blocks.length + waiting.length := by
      rw [List.length_cons]
      omega
    have hlen' : r.blocks.length + 1 + (waiting.length + children.length) - 1 =
        r.blocks.length + waiting.length + children.length := by omega
    rw [List.flatMap_append, h.listed, hlen]
    simp only [List.flatMap_cons, List.flatMap_nil, List.append_nil, List.length_append,
      List.length_singleton]
    rw [hlen', show r.blocks.length + 1 + waiting.length = 1 + (r.blocks.length + waiting.length) by
      omega]
    exact List.range'_append_1
  · intro j b c hj hc
    rcases Nat.lt_or_ge j r.blocks.length with hlt | hge
    · rw [List.getElem?_append_left hlt] at hj
      exact h.later j b c hj hc
    · rw [List.getElem?_append_right hge, List.getElem?_singleton] at hj
      split at hj
      · cases hj
        have := (List.mem_range'_1.mp hc).1
        omega
      · cases hj

theorem restoreBlocks_spec (s : Snapshot) {table : CallTable} (steps : Nat) {waiting : List Text}
    (seen : List Text) {r : Restored} (h : Rebuilt table waiting r) :
    (table.Extends (restoreBlocks s steps waiting seen r).2 ∧
      (table.Distinct → (restoreBlocks s steps waiting seen r).2.Distinct)) ∧
      ∀ r', (restoreBlocks s steps waiting seen r).1 = some r' →
        Rebuilt table [] r' ∧ r'.table = (restoreBlocks s steps waiting seen r).2 ∧
          (waiting ≠ [] ∨ r.blocks ≠ [] → r'.blocks ≠ []) := by
  induction steps generalizing waiting seen r with
  | zero =>
    cases waiting with
    | nil =>
      rw [restoreBlocks]
      refine ⟨⟨h.grown, h.distinct⟩, ?_⟩
      intro r' hr'
      cases hr'
      exact ⟨h, rfl, by simp⟩
    | cons name waiting =>
      rw [restoreBlocks]
      refine ⟨⟨h.grown, h.distinct⟩, ?_⟩
      intro r' hr'
      cases hr'
  | succ steps ih =>
    cases waiting with
    | nil =>
      rw [restoreBlocks]
      refine ⟨⟨h.grown, h.distinct⟩, ?_⟩
      intro r' hr'
      cases hr'
      exact ⟨h, rfl, by simp⟩
    | cons name waiting =>
      rw [restoreBlocks]
      split
      · split
        · obtain ⟨hg, hr⟩ := ih _ (h.next _ _ _)
          refine ⟨hg, ?_⟩
          intro r' hr'
          obtain ⟨h₁, h₂, h₃⟩ := hr r' hr'
          exact ⟨h₁, h₂, fun _ => h₃ (.inr (by simp))⟩
        · refine ⟨⟨h.grown, h.distinct⟩, ?_⟩
          intro r' hr'
          cases hr'
      · refine ⟨⟨h.grown, h.distinct⟩, ?_⟩
        intro r' hr'
        cases hr'

theorem look_nameTop (top : Text) (f : Fragment) (i : Nat) :
    Fragment.look (nameTop top f) i =
      (f.look i).map fun b => { b with name := if i = 0 then top else b.name } := by
  cases f with
  | nil => simp [nameTop, Fragment.look]
  | cons b rest =>
    cases i with
    | zero => simp [nameTop, Fragment.look]
    | succ i => simp [nameTop, Fragment.look]

theorem relabel_nameTop (top : Text) (f : Fragment) :
    Relabel f.look (Fragment.look (nameTop top f)) := by
  intro i
  rw [look_nameTop]
  cases h : f.look i with
  | none => exact .inl ⟨rfl, rfl⟩
  | some b => exact .inr ⟨b, _, rfl, rfl, rfl, rfl⟩

theorem Rebuilt.linked {table : CallTable} {r : Restored} (h : Rebuilt table [] r)
    (hne : r.blocks ≠ []) (d : Dialect) (names : Renaming) :
    Fragment.Linked (r.blocks.map (renameTokens d names)) id where
  pos := by
    rw [List.length_map]
    exact List.length_pos_iff.mpr hne
  listed := by
    have hl : (r.blocks.map (renameTokens d names)).flatMap (·.children) =
        r.blocks.flatMap (·.children) := by
      rw [List.flatMap_map]
      rfl
    rw [hl, h.listed, List.length_map, List.length_nil, Nat.add_zero]
  ranked := by
    intro p b c hp hc
    rw [List.getElem?_map] at hp
    obtain ⟨b', hb', rfl⟩ := Option.map_eq_some_iff.mp hp
    exact h.later p b' c hb' hc

theorem mem_nameTop_withParents {top : Text} {f : Fragment} {b : Block}
    (hb : b ∈ nameTop top (Fragment.withParents f)) : ∃ b' ∈ f, b.calls = b'.calls := by
  obtain ⟨i, hi⟩ := List.mem_iff_getElem?.mp hb
  have hl : Fragment.look (nameTop top (Fragment.withParents f)) i = some b := hi
  rw [look_nameTop, Fragment.look_withParents, Option.map_map] at hl
  obtain ⟨b', hb', rfl⟩ := Option.map_eq_some_iff.mp hl
  exact ⟨b', List.mem_of_getElem? hb', rfl⟩

/-- What restoring gives: a table that knows more calls, and blocks that make a tree. -/
theorem restore_spec (d : Dialect) (top : Text) (table : CallTable) (next : Nat) (s : Snapshot) :
    table.Extends (s.restore d top table next).2 ∧
      (table.Distinct → (s.restore d top table next).2.Distinct) ∧
      ∀ f is, (s.restore d top table next).1 = some (f, is) →
        f.Ready top (s.restore d top table next).2 := by
  have hstart : Rebuilt table [rootName] ⟨[], table, (renumber next s.inclusions ∅).2⟩ :=
    ⟨.refl table, id, by simp, rfl, by simp⟩
  obtain ⟨⟨hg, hd⟩, hr⟩ :=
    restoreBlocks_spec s (s.blocks.entries.length + 1) [rootName] hstart
  rw [restore]
  refine ⟨hg, hd, ?_⟩
  intro f is hf
  simp only [Option.map_eq_some_iff, Prod.mk.injEq] at hf
  obtain ⟨r, hres, rfl, -⟩ := hf
  obtain ⟨hb, htab, hne⟩ := hr r hres
  have hlinked := hb.linked (hne (.inl (by simp))) d r.names
  refine ⟨hlinked.isTree.relabel (relabel_nameTop top _), ?_, ?_⟩
  · obtain ⟨b, hb₀, -⟩ := hlinked.isTree.top
    refine ⟨{ b with name := top }, ?_, rfl⟩
    rw [look_nameTop, hb₀]
    rfl
  · intro b hmem id hid
    obtain ⟨b₁, hb₁, hc₁⟩ := mem_nameTop_withParents hmem
    obtain ⟨b₂, hb₂, rfl⟩ := List.mem_map.mp hb₁
    rw [hc₁] at hid
    obtain ⟨c, hc⟩ := hb.known b₂ hb₂ id hid
    exact ⟨c, by rw [← htab]; exact hc⟩

def Saves (s : Snapshot) (c : Call) : Prop :=
  ∃ name calls, s.functions.get? name = some calls ∧ c ∈ calls.entries.map (·.2)

theorem of_get?_internAll {cs : List (Text × Call)} {table : CallTable} {ids : List CallId}
    {names : Renaming} {id : CallId} {c : Call}
    (h : (internAll cs table ids names).2.1.get? id = some c) :
    table.get? id = some c ∨ c ∈ cs.map (·.2) := by
  induction cs generalizing table ids names with
  | nil => exact .inl h
  | cons e cs ih =>
    obtain ⟨old, d⟩ := e
    rw [internAll] at h
    rw [List.map_cons, List.mem_cons]
    rcases ih h with hc | hc
    · rcases CallTable.of_get?_intern hc with hc | rfl
      · exact .inl hc
      · exact .inr (.inl rfl)
    · exact .inr (.inr hc)

theorem of_get?_restoreBlocks (s : Snapshot) (steps : Nat) (waiting seen : List Text) (r : Restored)
    {id : CallId} {c : Call} (h : (restoreBlocks s steps waiting seen r).2.get? id = some c) :
    r.table.get? id = some c ∨ s.Saves c := by
  induction steps generalizing waiting seen r with
  | zero =>
    cases waiting with
    | nil => exact .inl h
    | cons name waiting => exact .inl h
  | succ steps ih =>
    cases waiting with
    | nil => exact .inl h
    | cons name waiting =>
      rw [restoreBlocks] at h
      split at h
      · split at h
        · rcases ih _ _ _ h with hc | hc
          · rcases of_get?_internAll hc with hc | hc
            · exact .inl hc
            · cases hf : s.functions.get? name with
              | none =>
                rw [hf] at hc
                cases hc
              | some calls =>
                rw [hf] at hc
                exact .inr ⟨name, calls, hf, hc⟩
          · exact .inr hc
        · exact .inl h
      · exact .inl h

theorem of_get?_restore {d : Dialect} {top : Text} {table : CallTable} {next : Nat} {s : Snapshot}
    {id : CallId} {c : Call} (h : (s.restore d top table next).2.get? id = some c) :
    table.get? id = some c ∨ s.Saves c := by
  have hrun : (restoreBlocks s (s.blocks.entries.length + 1) [rootName] [rootName]
      ⟨[], table, (renumber next s.inclusions ∅).2⟩).2.get? id = some c := h
  exact of_get?_restoreBlocks s _ _ _ _ hrun

end BlockTemplate.Snapshot
