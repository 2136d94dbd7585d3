import BlockTemplate.Proofs.Snapshot.Renamed
import BlockTemplate.Proofs.Template.Attach
import BlockTemplate.Proofs.Tree.Listed

/-!
# Variables that a snapshot lists

A snapshot lists what the blocks it was taken of list, and a fragment that is restored from it lists
the same, apart from the placeholders that get new names.
-/

namespace BlockTemplate

namespace Snapshot

open Lookup (Reach)

def HasVar (s : Snapshot) (v : Text) : Prop := ∃ name vars, s.vars.get? name = some vars ∧ v ∈ vars

theorem of_get?_vars_addBlocks {t : Tree} {trim : Bool} {rename : Text → Text}
    {es : List (BlockId × Block)} {s : Snapshot} {name : Text} {vars : List Text}
    (h : (es.foldl (fun s e => s.addBlock t trim rename e.2) s).vars.get? name = some vars) :
    s.vars.get? name = some vars ∨ ∃ e ∈ es, e.2.vars = vars := by
  induction es generalizing s with
  | nil => exact .inl h
  | cons e es ih =>
    rcases ih h with hs | ⟨x, hx, hvars⟩
    · have hs : (s.vars.insert (rename e.2.name) e.2.vars).get? name = some vars := hs
      rw [Dict.get?_insert] at hs
      split at hs
      · exact .inr ⟨e, List.mem_cons_self, Option.some.inj hs⟩
      · exact .inl hs
    · exact .inr ⟨x, List.mem_cons_of_mem e hx, hvars⟩

theorem inclusions_take_any (t : Tree) (top : BlockId) (is : List Inclusion) (trim : Bool) :
    (take t top is trim).inclusions = is := by
  rw [take]
  generalize t.preorder top = es
  generalize hs : (⟨∅, ∅, ∅, ∅, is⟩ : Snapshot) = s
  have his : s.inclusions = is := by rw [← hs]
  clear hs
  generalize ((es.head?.map (·.2.name)).getD rootName) = topName
  induction es generalizing s with
  | nil => exact his
  | cons e es ih => exact ih _ his

theorem hasVar_take {t : Tree} (h : t.Sound) {top : BlockId} {b : Block} (hb : t.get? top = some b)
    {is : List Inclusion} {trim : Bool} {v : Text} (hv : (take t top is trim).HasVar v) :
    ∃ x d, Reach t.get? top x ∧ t.get? x = some d ∧ v ∈ d.vars := by
  obtain ⟨name, vars, hvars, hv⟩ := hv
  rcases of_get?_vars_addBlocks hvars with hnone | ⟨⟨x, d⟩, hx, rfl⟩
  · cases hnone
  · obtain ⟨hreach, hd⟩ := (Tree.mem_preorder_iff h.tree hb).mp hx
    exact ⟨x, d, hreach, hd, hv⟩

section Restoring

variable {s : Snapshot} {is new : List Inclusion} {names : Renaming}

structure Renews (is new : List Inclusion) (names : Renaming) : Prop where
  old : ∀ i ∈ is, (names.get? i.name).isSome
  new : ∀ x y, names.get? x = some y → (∃ id : CallId, y = id.memo) ∨ ∃ i ∈ new, i.name = y

theorem isSome_get?_insert {x k y : Text} (h : (names.get? x).isSome) :
    ((names.insert k y).get? x).isSome := by
  rw [Dict.get?_insert]
  split
  · rfl
  · exact h

theorem isSome_renumber {x : Text} (next : Nat) (h : (names.get? x).isSome) :
    ((renumber next is names).2.get? x).isSome := by
  induction is generalizing next names with
  | nil => exact h
  | cons i is ih => exact ih (next + 1) (isSome_get?_insert h)

theorem isSome_renumber_of_mem (next : Nat) (names : Renaming) :
    ∀ i ∈ is, ((renumber next is names).2.get? i.name).isSome := by
  induction is generalizing next names with
  | nil => exact fun i hi => absurd hi List.not_mem_nil
  | cons j is ih =>
    intro i hi
    rcases List.mem_cons.mp hi with rfl | hi
    · refine isSome_renumber (next + 1) ?_
      rw [Dict.get?_insert_self]
      rfl
    · exact ih (next + 1) _ i hi

theorem of_get?_renumber {next : Nat} {x y : Text}
    (h : (renumber next is names).2.get? x = some y) :
    names.get? x = some y ∨ ∃ i ∈ (renumber next is names).1, i.name = y := by
  induction is generalizing next names with
  | nil => exact .inl h
  | cons j is ih =>
    rcases ih h with hold | ⟨i, hi, hy⟩
    · rw [Dict.get?_insert] at hold
      split at hold
      · exact .inr ⟨_, List.mem_cons_self, Option.some.inj hold⟩
      · exact .inl hold
    · exact .inr ⟨i, List.mem_cons_of_mem _ hi, hy⟩

theorem renews_renumber (is : List Inclusion) (next : Nat) :
    Renews is (renumber next is ∅).1 (renumber next is ∅).2 where
  old := isSome_renumber_of_mem next ∅
  new := by
    intro x y h
    rcases of_get?_renumber h with hnone | hnew
    · cases hnone
    · exact .inr hnew

theorem Renews.internAll (h : Renews is new names) (cs : List (Text × Call)) (table : CallTable)
    (ids : List CallId) : Renews is new (Snapshot.internAll cs table ids names).2.2 := by
  induction cs generalizing table ids names with
  | nil => exact h
  | cons c cs ih =>
    refine ih ⟨fun i hi => isSome_get?_insert (h.old i hi), fun x y hy => ?_⟩ _ _
    rw [Dict.get?_insert] at hy
    split at hy
    · exact .inl ⟨_, (Option.some.inj hy).symm⟩
    · exact h.new x y hy

def Comes (s : Snapshot) (new : List Inclusion) (v : Text) : Prop :=
  (∃ id : CallId, v = id.memo) ∨ (∃ i ∈ new, i.name = v) ∨
    s.HasVar v ∧ ∀ i ∈ s.inclusions, i.name ≠ v

theorem Renews.comes (h : Renews s.inclusions new names) {v : Text} (hv : s.HasVar v) :
    s.Comes new ((names.get? v).getD v) := by
  cases hname : names.get? v with
  | some y => exact (h.new v y hname).imp_right .inl
  | none =>
    refine .inr (.inr ⟨hv, fun i hi hiv => ?_⟩)
    have hold := h.old i hi
    rw [hiv, Option.getD_none, hname] at hold
    cases hold

theorem comes_restoreBlocks (steps : Nat) (waiting seen : List Text) {r : Restored}
    (hnames : Renews s.inclusions new r.names)
    (hvars : ∀ b ∈ r.blocks, ∀ v ∈ b.vars, s.Comes new v) {r' : Restored}
    (hr : (restoreBlocks s steps waiting seen r).1 = some r') :
    ∀ b ∈ r'.blocks, ∀ v ∈ b.vars, s.Comes new v := by
  induction steps generalizing waiting seen r with
  | zero =>
    cases waiting with
    | nil =>
      cases hr
      exact hvars
    | cons name waiting => cases hr
  | succ steps ih =>
    cases waiting with
    | nil =>
      cases hr
      exact hvars
    | cons name waiting =>
      rw [restoreBlocks] at hr
      split at hr
      · split at hr
        · have hnew := hnames.internAll ((s.functions.get? name).getD ∅).entries r.table []
          refine ih _ _ hnew (fun b hb v hv => ?_) hr
          rcases List.mem_append.mp hb with hb | hb
          · exact hvars b hb v hv
          · rw [List.mem_singleton.mp hb] at hv
            obtain ⟨u, hu, rfl⟩ :=
              List.mem_map.mp ((mem_foldl_addNew.mp hv).resolve_left List.not_mem_nil)
            cases hs : s.vars.get? name with
            | none =>
              rw [hs] at hu
              cases hu
            | some vars =>
              rw [hs] at hu
              exact hnew.comes ⟨name, vars, hs, hu⟩
        · cases hr
      · cases hr

theorem vars_of_mem_nameTop {top : Text} {f : Fragment} {b : Block}
    (hb : b ∈ nameTop top (Fragment.withParents f)) : ∃ b' ∈ f, b.vars = b'.vars := by
  obtain ⟨i, hi⟩ := List.mem_iff_getElem?.mp hb
  have hl : Fragment.look (nameTop top (Fragment.withParents f)) i = some b := hi
  rw [look_nameTop, Fragment.look_withParents, Option.map_map] at hl
  obtain ⟨b', hb', rfl⟩ := Option.map_eq_some_iff.mp hl
  exact ⟨b', List.mem_of_getElem? hb', rfl⟩

theorem comes_restore {d : Dialect} {top : Text} {table : CallTable} {next : Nat} {f : Fragment}
    (h : (s.restore d top table next).1 = some (f, new)) {v : Text} (hv : f.HasVar v) :
    s.Comes new v := by
  simp only [restore, Option.map_eq_some_iff, Prod.mk.injEq] at h
  obtain ⟨r, hr, rfl, rfl⟩ := h
  obtain ⟨b, hb, hv⟩ := hv
  obtain ⟨b₁, hb₁, hvars⟩ := vars_of_mem_nameTop hb
  obtain ⟨b₂, hb₂, rfl⟩ := List.mem_map.mp hb₁
  exact comes_restoreBlocks _ _ _ (renews_renumber s.inclusions next) (by simp) hr b₂ hb₂ v
    (hvars ▸ hv)

end Restoring

end Snapshot

namespace Template

open Lookup (Reach)

variable {t : Template} {f : Fragment} {top : Text}

theorem below_plant {look new : Lookup} {place : Nat → BlockId} {id : BlockId} {leaf : Block}
    (hp : Lookup.Plant look new f.look place id leaf) (hf : Lookup.IsTree f.look 0) :
    (∃ b, new id = some b) ∧
      ∀ x b, Reach new id x → new x = some b → ∀ v ∈ b.vars, f.HasVar v := by
  obtain ⟨d, hd, -⟩ := hp.top_eq hf
  refine ⟨⟨d, hd⟩, fun x b hx hb v hv => ?_⟩
  obtain ⟨i, g, hg, rfl⟩ := hp.exists_of_reach hf hx
  rw [hp.placed i g hg, Option.some.injEq] at hb
  rw [← hb] at hv
  exact ⟨g, List.mem_of_getElem? hg, hv⟩

theorem below_attach (d : Dialect) (h : t.tree.Sound) {target : Target} (ht : t.Admits top target)
    (hr : f.Ready top t.tree.calls) :
    (t.attach d f target).2.tree.Live (t.attach d f target).1 ∧
      ∀ x b, Reach (t.attach d f target).2.tree.get? (t.attach d f target).1 x →
        (t.attach d f target).2.tree.get? x = some b → ∀ v ∈ b.vars, f.HasVar v := by
  match target, ht with
  | .under p placeholder, ⟨c, hc⟩ =>
    exact below_plant (Tree.plant_graftUnder hr.tree
      { name := top, content := [], parent := some p } hc
      (Block.adopt d placeholder (topName f) (t.tree.graftUnder p f).1) rfl rfl).2 hr.tree
  | .over id keepOutput, ⟨c, hc, _⟩ =>
    exact below_plant (Tree.plant_graftOver hr.tree ((Tree.get?_prune h.tree hc id).1 rfl) rfl)
      hr.tree

end Template

end BlockTemplate
