import BlockTemplate.Proofs.Fragment.Compile
import BlockTemplate.Proofs.Tree.Cut
import BlockTemplate.Proofs.Tree.Plant
import BlockTemplate.Proofs.Tree.Walk
import BlockTemplate.Template.Edit

/-!
# Edits keep a tree sound

Each edit of a tree is, slot by slot, one of the edits of a look-up. The numbers that the blocks give
for their calls stay good because a table only grows until the unused calls are given up.
-/

namespace BlockTemplate.Tree

open Lookup (Reach IsTree Distinct Sprout Plant Pruned Dissolved inlineChildren)

/-- The blocks make one tree of distinct names, and every call they list is known. -/
structure Sound (t : Tree) : Prop where
  tree : IsTree t.get? rootId
  distinct : Distinct t.get?
  root_name : ∃ b, t.get? rootId = some b ∧ b.name = rootName
  known : ∀ id b, t.get? id = some b → ∀ c ∈ b.calls, ∃ call, t.calls.get? c = some call
  calls : t.calls.Distinct

def Keeps (t u : Tree) : Prop :=
  ∀ id b, t.get? id = some b → ∃ c, u.get? id = some c ∧ c.name = b.name

variable {t u v : Tree}

theorem Keeps.refl (t : Tree) : Keeps t t := fun _ b hb => ⟨b, hb, rfl⟩

theorem Keeps.trans (h₁ : Keeps t u) (h₂ : Keeps u v) : Keeps t v := by
  intro id b hb
  obtain ⟨c, hc, hcb⟩ := h₁ id b hb
  obtain ⟨d, hd, hdc⟩ := h₂ id c hc
  exact ⟨d, hd, hdc.trans hcb⟩

theorem get?_empty (id : Nat) :
    empty.get? id = if id = rootId then some { name := rootName, content := [] } else none := by
  cases id with
  | zero => rfl
  | succ n => rfl

theorem sound_empty : empty.Sound where
  tree := {
    top := ⟨_, rfl, rfl⟩
    child_iff := by
      intro p b c hp
      rw [get?_empty] at hp
      split at hp
      · cases hp
        refine ⟨fun hm => absurd hm List.not_mem_nil, ?_⟩
        intro ⟨d, hd, hdp⟩
        rw [get?_empty] at hd
        split at hd
        · cases hd
          cases hdp
        · cases hd
      · cases hp
    parent_live := by
      intro c d p hc hd
      rw [get?_empty] at hc
      split at hc
      · cases hc
        cases hd
      · cases hc
    children_nodup := by
      intro p b hp
      rw [get?_empty] at hp
      split at hp
      · cases hp
        exact List.nodup_nil
      · cases hp
    reached := by
      intro c d hc
      rw [get?_empty] at hc
      split at hc
      · rename_i he
        rw [he]
        exact .refl
      · cases hc }
  distinct := by
    intro i j b c hi hj _
    rw [get?_empty] at hi hj
    split at hi
    · split at hj
      · rename_i h₁ h₂
        rw [h₁, h₂]
      · cases hj
    · cases hi
  root_name := ⟨_, rfl, rfl⟩
  known := by
    intro id b hb c hc
    rw [get?_empty] at hb
    split at hb
    · cases hb
      cases hc
    · cases hb
  calls := CallTable.distinct_empty

theorem Sound.withCalls (h : t.Sound) {calls : CallTable} (hg : t.calls.Extends calls)
    (hd : calls.Distinct) : ({ t with calls := calls } : Tree).Sound where
  tree := h.tree
  distinct := h.distinct
  root_name := h.root_name
  known := by
    intro id b hb c hc
    obtain ⟨call, hcall⟩ := h.known id b hb c hc
    exact ⟨call, hg c call hcall⟩
  calls := hd

theorem mem_usedCalls {id : BlockId} {b : Block} {c : CallId} (hb : t.get? id = some b)
    (hc : c ∈ b.calls) : c ∈ t.usedCalls := by
  rw [usedCalls, List.mem_flatMap]
  exact ⟨some b, List.mem_of_getElem? (get?_eq_some_iff.mp hb), hc⟩

theorem exists_of_mem_usedCalls {c : CallId} (h : c ∈ t.usedCalls) :
    ∃ x b, t.get? x = some b ∧ c ∈ b.calls := by
  rw [usedCalls, List.mem_flatMap] at h
  obtain ⟨slot, hslot, hc⟩ := h
  cases slot with
  | none => cases hc
  | some b =>
    obtain ⟨x, hx⟩ := List.mem_iff_getElem?.mp hslot
    exact ⟨x, b, get?_eq_some_iff.mpr hx, hc⟩

theorem Sound.releaseCalls (h : t.Sound) : t.releaseCalls.Sound where
  tree := h.tree
  distinct := h.distinct
  root_name := h.root_name
  known := by
    intro id b hb c hc
    have hused : c ∈ t.usedCalls := mem_usedCalls hb hc
    obtain ⟨call, hcall⟩ := h.known id b hb c hc
    refine ⟨call, ?_⟩
    rw [Tree.releaseCalls, CallTable.get?_keepOnly, if_pos hused]
    exact hcall
  calls := h.calls.keepOnly t.usedCalls

section Prune

variable {id : BlockId} {b : Block}

theorem get?_prune (ht : IsTree t.get? rootId) (hb : t.get? id = some b) (x : BlockId) :
    (x = id → (t.prune id).get? x = some { b with children := [] }) ∧
      (x ≠ id → Reach t.get? id x → (t.prune id).get? x = none) ∧
      (¬ Reach t.get? id x → (t.prune id).get? x = t.get? x) := by
  have hmem := mem_descendants_iff ht hb (x := x)
  rw [prune, get?_modify, get?_clear]
  refine ⟨?_, ?_, ?_⟩
  · intro hx
    rw [if_pos hx, if_neg (fun hm => (hmem.mp hm).2 hx), hx, hb]
    rfl
  · intro hx hr
    rw [if_neg hx, if_pos (hmem.mpr ⟨hr, hx⟩)]
  · intro hr
    have hx : x ≠ id := by
      intro he
      rw [he] at hr
      exact hr .refl
    rw [if_neg hx, if_neg (fun hm => hr (hmem.mp hm).1)]

theorem pruned (ht : IsTree t.get? rootId) (hb : t.get? id = some b) :
    Pruned t.get? (t.prune id).get? id where
  stump := ⟨b, _, hb, (get?_prune ht hb id).1 rfl, rfl, rfl, rfl⟩
  gone := fun x hr hx => (get?_prune ht hb x).2.1 hx hr
  rest := fun x hr => (get?_prune ht hb x).2.2 hr

theorem calls_of_get?_prune (ht : IsTree t.get? rootId) (hb : t.get? id = some b) {x : BlockId}
    {d : Block} (hx : (t.prune id).get? x = some d) : ∃ e, t.get? x = some e ∧ d.calls = e.calls := by
  obtain ⟨h₁, h₂, h₃⟩ := get?_prune ht hb x
  by_cases hxid : x = id
  · rw [h₁ hxid, Option.some.injEq] at hx
    exact ⟨b, by rw [hxid, hb], by rw [← hx]⟩
  · by_cases hr : Reach t.get? id x
    · rw [h₂ hxid hr] at hx
      cases hx
    · exact ⟨d, by rw [← h₃ hr, hx], rfl⟩

theorem Sound.prune (h : t.Sound) (hb : t.get? id = some b) : (t.prune id).Sound where
  tree := (pruned h.tree hb).isTree h.tree
  distinct := (pruned h.tree hb).distinct h.distinct
  root_name := by
    obtain ⟨r, hr, hn⟩ := h.root_name
    obtain ⟨e, he, -⟩ := ((pruned h.tree hb).isTree h.tree).top
    obtain ⟨-, d, hd, hdn, -⟩ := (pruned h.tree hb).cases he
    rw [hr, Option.some.injEq] at hd
    exact ⟨e, he, by rw [hdn, ← hd, hn]⟩
  known := by
    intro x d hx c hc
    obtain ⟨e, he, hcalls⟩ := calls_of_get?_prune h.tree hb hx
    exact h.known x e he c (hcalls ▸ hc)
  calls := h.calls

end Prune

section Graft

variable {f : Fragment} {id : BlockId} {top : Text}

theorem lt_of_look {i : Nat} {b : Block} (h : f.look i = some b) : i < f.length :=
  (List.getElem?_eq_some_iff.mp h).1

theorem getD_mem {ids : List BlockId} {i : Nat} (h : i < ids.length) :
    ids.getD i rootId ∈ ids := by
  rw [List.getD_eq_getElem?_getD, List.getElem?_eq_getElem h]
  exact List.getElem_mem h

theorem getD_inj {ids : List BlockId} (hn : ids.Nodup) {i j : Nat} (hi : i < ids.length)
    (hj : j < ids.length) (h : ids.getD i rootId = ids.getD j rootId) : i = j := by
  rw [List.getD_eq_getElem?_getD, List.getD_eq_getElem?_getD, List.getElem?_eq_getElem hi,
    List.getElem?_eq_getElem hj] at h
  exact hn.getElem_inj_iff.mp h

theorem exists_getD_of_mem {ids : List BlockId} {x : BlockId} (h : x ∈ ids) :
    ∃ i, i < ids.length ∧ ids.getD i rootId = x := by
  obtain ⟨i, hi, hx⟩ := List.getElem_of_mem h
  refine ⟨i, hi, ?_⟩
  rw [List.getD_eq_getElem?_getD, List.getElem?_eq_getElem hi]
  exact hx

theorem plant_graftOver (hf : IsTree f.look 0) {leaf : Block} (hl : t.get? id = some leaf)
    (hb : leaf.children = []) :
    Plant t.get? (t.graftOver id f).get? f.look
      (fun i => (id :: t.allocate (f.length - 1)).getD i rootId) id leaf := by
  obtain ⟨b₀, hb₀, -⟩ := hf.top
  have hpos : 0 < f.length := lt_of_look hb₀
  have hlen : (id :: t.allocate (f.length - 1)).length = f.length := by
    rw [List.length_cons, length_allocate]
    omega
  have hnot : id ∉ t.allocate (f.length - 1) := by
    intro hm
    rw [get?_of_mem_allocate hm] at hl
    cases hl
  have hn : (id :: t.allocate (f.length - 1)).Nodup :=
    List.nodup_cons.mpr ⟨hnot, t.nodup_allocate _⟩
  have hfits : Fits t.slots.length (id :: t.allocate (f.length - 1)) := by
    have hlt : ∀ x ∈ [id], x < t.slots.length := by
      intro x hx
      rw [List.mem_singleton] at hx
      rw [hx]
      exact lt_of_get? hl
    exact fits_append hlt (t.fits_allocate _)
  have hup : (t.get? id).bind (·.parent) = leaf.parent := by
    rw [hl]
    rfl
  refine ⟨hl, hb, rfl, ?_, ?_, ?_, ?_⟩
  · intro i b hi hne
    obtain ⟨j, rfl⟩ := Nat.exists_eq_succ_of_ne_zero hne
    have hj := lt_of_look hi
    refine get?_of_mem_allocate (n := f.length - 1) ?_
    rw [List.getD_cons_succ]
    exact getD_mem (by rw [length_allocate]; omega)
  · intro i j b c hi hj h
    exact getD_inj hn (by rw [hlen]; exact lt_of_look hi) (by rw [hlen]; exact lt_of_look hj) h
  · intro i b hi
    rw [graftOver, hup]
    exact get?_graftAt_of_mem hfits hn hlen hi
  · intro x hx
    rw [graftOver]
    refine get?_graftAt_of_not_mem hfits hlen ?_
    intro hm
    obtain ⟨i, hi, hix⟩ := exists_getD_of_mem hm
    rw [hlen] at hi
    exact hx i f[i] (List.getElem?_eq_getElem hi) hix

theorem known_relocate {place : Nat → BlockId} {above : Option BlockId} (hr : f.Ready top t.calls)
    {i : Nat} {b : Block} (hb : f.look i = some b) :
    ∀ c ∈ (relocate place above b).calls, ∃ call, t.calls.get? c = some call :=
  hr.known b (List.mem_of_getElem? hb)

theorem Sound.graftOver (h : t.Sound) {leaf : Block} (hl : t.get? id = some leaf)
    (hb : leaf.children = []) (hr : f.Ready leaf.name t.calls) (hd : Distinct f.look)
    (hn : ∀ x b i c, t.get? x = some b → x ≠ id → f.look i = some c → b.name ≠ c.name) :
    (t.graftOver id f).Sound ∧ t.Keeps (t.graftOver id f) := by
  have hp := plant_graftOver hr.tree hl hb
  have hcalls : (t.graftOver id f).calls = t.calls := calls_graftAt _ _ _ _
  have hkeeps : t.Keeps (t.graftOver id f) := by
    intro x b hx
    by_cases hxid : x = id
    · subst hxid
      rw [hl, Option.some.injEq] at hx
      subst hx
      obtain ⟨b₀, hb₀, hn₀⟩ := hr.top_name
      exact ⟨_, hp.placed 0 b₀ hb₀, hn₀⟩
    · exact ⟨b, hp.kept hx hxid, rfl⟩
  refine ⟨⟨hp.isTree h.tree hr.tree, hp.distinct h.distinct hr.tree hd hn, ?_, ?_, ?_⟩, hkeeps⟩
  · obtain ⟨r, hr, hrn⟩ := h.root_name
    obtain ⟨c, hc, hcn⟩ := hkeeps rootId r hr
    exact ⟨c, hc, hcn.trans hrn⟩
  · intro x d hx c hc
    rw [hcalls]
    rcases hp.cases hx with ⟨i, b, hi, -, rfl⟩ | ⟨hx, -⟩
    · exact known_relocate hr hi c hc
    · exact h.known x d hx c hc
  · rw [hcalls]
    exact h.calls

def sprouted (t : Tree) (p id : BlockId) (b leaf : Block) : Lookup := fun x =>
  if x = id then some leaf else if x = p then some b else t.get? x

theorem sprout_sprouted {p : BlockId} {b d : Block} (leaf : Block) (hp : t.get? p = some b)
    (hid : t.get? id = none) (hn : d.name = b.name) (hpar : d.parent = b.parent)
    (hc : d.children = b.children ++ [id]) (hbare : leaf.children = [])
    (hbelow : leaf.parent = some p) : Sprout t.get? (t.sprouted p id d leaf) p id leaf where
  vacant := hid
  leaf_eq := by simp [sprouted]
  bare := hbare
  below := hbelow
  above := by
    have hne : p ≠ id := by
      intro he
      rw [he, hid] at hp
      cases hp
    exact ⟨b, d, hp, by simp [sprouted, hne], hn, hpar, hc⟩
  rest := by
    intro x h₁ h₂
    simp [sprouted, h₁, h₂]

theorem plant_graftUnder (hf : IsTree f.look 0) {p : BlockId} {b : Block} (leaf : Block)
    (hp : t.get? p = some b) (change : Block → Block) (hbare : leaf.children = [])
    (hbelow : leaf.parent = some p) :
    t.get? (t.graftUnder p f).1 = none ∧
      Plant (t.sprouted p (t.graftUnder p f).1 (change b) leaf)
        ((t.graftUnder p f).2.modify p change).get? f.look
        (fun i => (t.allocate f.length).getD i rootId) (t.graftUnder p f).1 leaf := by
  obtain ⟨b₀, hb₀, -⟩ := hf.top
  have hpos : 0 < f.length := lt_of_look hb₀
  have hlen := t.length_allocate f.length
  have hn := t.nodup_allocate f.length
  have hfits := t.fits_allocate f.length
  -- All slots for the fragment were empty, so none of them is that of the parent.
  have hvac : ∀ i, i < f.length → t.get? ((t.allocate f.length).getD i rootId) = none := fun i hi =>
    get?_of_mem_allocate (getD_mem (by rw [hlen]; exact hi))
  have hid : (t.graftUnder p f).1 = (t.allocate f.length).getD 0 rootId := by
    rw [graftUnder]
    cases t.allocate f.length <;> rfl
  have hpne : ∀ i, i < f.length → (t.allocate f.length).getD i rootId ≠ p := by
    intro i hi he
    have := hvac i hi
    rw [he, hp] at this
    cases this
  have hget : ∀ x, ((t.graftUnder p f).2.modify p change).get? x =
      if x = p then ((t.graftUnder p f).2.get? x).map change else (t.graftUnder p f).2.get? x :=
    fun x => get?_modify _ p change x
  refine ⟨by rw [hid]; exact hvac 0 hpos, ?_, hbare, hid.symm, ?_, ?_, ?_, ?_⟩
  · simp [sprouted]
  · intro i d hi hne
    have hlt := lt_of_look hi
    have hzero : (t.allocate f.length).getD i rootId ≠ (t.graftUnder p f).1 := by
      intro he
      rw [hid] at he
      exact hne (getD_inj hn (by rw [hlen]; exact hlt) (by rw [hlen]; exact hpos) he)
    rw [sprouted, if_neg hzero, if_neg (hpne i hlt)]
    exact hvac i hlt
  · intro i j c d hi hj h
    exact getD_inj hn (by rw [hlen]; exact lt_of_look hi) (by rw [hlen]; exact lt_of_look hj) h
  · intro i d hi
    have hgraft : (t.graftAt (t.allocate f.length) (some p) f).get? _ = some (relocate _ _ d) :=
      get?_graftAt_of_mem hfits hn hlen hi
    rw [hget, if_neg (hpne i (lt_of_look hi)), hbelow]
    exact hgraft
  · intro x hx
    have hnot : x ∉ t.allocate f.length := by
      intro hm
      obtain ⟨i, hi, hix⟩ := exists_getD_of_mem hm
      rw [hlen] at hi
      exact hx i f[i] (List.getElem?_eq_getElem hi) hix
    have hxid : x ≠ (t.graftUnder p f).1 := by
      intro he
      exact hx 0 b₀ hb₀ (by rw [← hid, he])
    have hgraft : (t.graftUnder p f).2.get? x = t.get? x :=
      get?_graftAt_of_not_mem hfits hlen hnot
    rw [hget, hgraft, sprouted, if_neg hxid]
    split
    · rename_i hxp
      rw [hxp, hp]
      rfl
    · rfl

structure Adopts (id : BlockId) (b d : Block) : Prop where
  name : d.name = b.name
  parent : d.parent = b.parent
  calls : d.calls = b.calls
  children : d.children = b.children ++ [id]

theorem Sound.graftUnder (h : t.Sound) {p : BlockId} {b : Block} (hp : t.get? p = some b)
    (hr : f.Ready top t.calls) (hd : Distinct f.look)
    (hn : ∀ x d i c, t.get? x = some d → f.look i = some c → d.name ≠ c.name)
    (change : Block → Block) (hc : Adopts (t.graftUnder p f).1 b (change b)) :
    ((t.graftUnder p f).2.modify p change).Sound ∧
      t.Keeps ((t.graftUnder p f).2.modify p change) := by
  obtain ⟨b₀, hb₀, hn₀⟩ := hr.top_name
  let leaf : Block := { name := top, content := [], parent := some p }
  obtain ⟨hvac, hplant⟩ := plant_graftUnder hr.tree leaf hp change rfl rfl
  have hsprout := sprout_sprouted (d := change b) leaf hp hvac hc.name hc.parent
    hc.children rfl rfl
  have htree := hsprout.isTree h.tree
  have hdist : Distinct (t.sprouted p (t.graftUnder p f).1 (change b) leaf) := by
    refine hsprout.distinct h.distinct ?_
    intro x d hx he
    exact hn x d 0 b₀ hx hb₀ (he.trans hn₀.symm)
  have hcalls : ((t.graftUnder p f).2.modify p change).calls = t.calls := calls_graftAt _ _ _ _
  have hkeeps : t.Keeps ((t.graftUnder p f).2.modify p change) := by
    intro x d hx
    obtain ⟨d', hd', hname, -⟩ := hsprout.kept hx
    refine ⟨d', hplant.kept hd' ?_, hname⟩
    intro he
    rw [he, hvac] at hx
    cases hx
  refine ⟨⟨hplant.isTree htree hr.tree, ?_, ?_, ?_, ?_⟩, hkeeps⟩
  · refine hplant.distinct hdist hr.tree hd ?_
    intro x d i c hx hne hi
    rcases hsprout.cases hx with ⟨hxid, -⟩ | ⟨e, he, hname, -⟩
    · exact absurd hxid hne
    · rw [hname]
      exact hn x e i c he hi
  · obtain ⟨r, hr, hrn⟩ := h.root_name
    obtain ⟨c, hc, hcn⟩ := hkeeps rootId r hr
    exact ⟨c, hc, hcn.trans hrn⟩
  · intro x d hx c hcd
    rw [hcalls]
    rcases hplant.cases hx with ⟨i, e, hi, -, rfl⟩ | ⟨hx, -⟩
    · exact known_relocate hr hi c hcd
    · rw [sprouted] at hx
      split at hx
      · cases hx
        cases hcd
      · split at hx
        · cases hx
          exact h.known p b hp c (hc.calls ▸ hcd)
        · exact h.known x d hx c hcd
  · rw [hcalls]
    exact h.calls

end Graft

section Dissolve

theorem get?_foldl_modify {f : Block → Block} (hf : ∀ b, f (f b) = f b) (ids : List BlockId)
    (t : Tree) (x : BlockId) :
    (ids.foldl (fun t c => t.modify c f) t).get? x =
      if x ∈ ids then (t.get? x).map f else t.get? x := by
  induction ids generalizing t with
  | nil => simp
  | cons c ids ih =>
    rw [List.foldl_cons, ih, get?_modify]
    by_cases hx : x = c
    · subst hx
      rw [if_pos rfl, if_pos List.mem_cons_self, Option.map_map]
      split
      · congr 1
        exact funext hf
      · rfl
    · rw [if_neg hx]
      simp [hx]

theorem calls_foldl_modify (f : Block → Block) (ids : List BlockId) (t : Tree) :
    (ids.foldl (fun t c => t.modify c f) t).calls = t.calls := by
  induction ids generalizing t with
  | nil => rfl
  | cons c ids ih => rw [List.foldl_cons, ih, calls_modify]

variable {id p : BlockId} {b : Block}

theorem get?_dissolve (hb : t.get? id = some b) (hp : b.parent = some p) (token : Text)
    (x : BlockId) :
    (t.dissolve id token).get? x =
      if x = id then none
      else (t.get? x).map fun e =>
        let d := if x ∈ b.children then { e with parent := some p } else e
        if x = p then absorb token id b d else d := by
  simp only [dissolve, hb, hp]
  rw [get?_modify, get?_foldl_modify (f := fun b => { b with parent := some p }) (fun _ => rfl),
    get?_clear]
  by_cases hx : x = id
  · simp [hx]
  · simp only [List.mem_singleton, hx, if_false]
    cases t.get? x with
    | none => simp
    | some e => split <;> split <;> simp_all

theorem calls_dissolve (t : Tree) (id : BlockId) (token : Text) :
    (t.dissolve id token).calls = t.calls := by
  rw [dissolve]
  split
  · rfl
  · dsimp only
    split
    · rfl
    · rw [calls_modify, calls_foldl_modify, calls_clear]

theorem dissolved (ht : IsTree t.get? rootId) (hb : t.get? id = some b) (hp : b.parent = some p)
    (token : Text) : Dissolved t.get? (t.dissolve id token).get? id p b where
  block := hb
  up := hp
  gone := by rw [get?_dissolve hb hp, if_pos rfl]
  vacant := by
    intro x hx
    rw [get?_dissolve hb hp, hx]
    split <;> rfl
  kept := by
    intro x e hx hne
    have hmem : x ∈ b.children ↔ e.parent = some id := by
      rw [ht.child_iff id b x hb]
      refine ⟨?_, fun he => ⟨e, hx, he⟩⟩
      intro ⟨d, hd, hdp⟩
      rw [hx, Option.some.injEq] at hd
      rw [hd, hdp]
    rw [get?_dissolve hb hp, if_neg hne, hx, Option.map_some]
    refine ⟨_, rfl, ?_, ?_, ?_⟩
    · dsimp only
      split <;> split <;> rfl
    · dsimp only
      by_cases hm : x ∈ b.children
      · rw [if_pos hm, if_pos (hmem.mp hm)]
        split <;> rfl
      · rw [if_neg hm, if_neg (fun he => hm (hmem.mpr he))]
        split <;> rfl
    · dsimp only
      split
      · split <;> rfl
      · split <;> rfl

theorem calls_of_get?_dissolve (hb : t.get? id = some b) (hp : b.parent = some p) {token : Text}
    {x : BlockId} {d : Block} (hx : (t.dissolve id token).get? x = some d) :
    ∃ e, t.get? x = some e ∧ ∀ c ∈ d.calls, c ∈ e.calls ∨ c ∈ b.calls := by
  rw [get?_dissolve hb hp] at hx
  split at hx
  · cases hx
  · obtain ⟨e, he, rfl⟩ := Option.map_eq_some_iff.mp hx
    refine ⟨e, he, ?_⟩
    intro c hc
    have hcalls : (if x ∈ b.children then { e with parent := some p } else e).calls = e.calls := by
      split <;> rfl
    dsimp only at hc
    split at hc
    · have hc' := mem_foldl_addNew.mp hc
      rw [hcalls] at hc'
      exact hc'
    · rw [hcalls] at hc
      exact .inl hc

theorem Sound.dissolve (h : t.Sound) (hb : t.get? id = some b) (hp : b.parent = some p)
    (token : Text) : (t.dissolve id token).Sound where
  tree := (dissolved h.tree hb hp token).isTree h.tree
  distinct := (dissolved h.tree hb hp token).distinct h.distinct
  root_name := by
    obtain ⟨r, hr, hn⟩ := h.root_name
    obtain ⟨e, he, -⟩ := ((dissolved h.tree hb hp token).isTree h.tree).top
    obtain ⟨-, d, hd, hdn, -⟩ := (dissolved h.tree hb hp token).cases he
    rw [hr, Option.some.injEq] at hd
    exact ⟨e, he, by rw [hdn, ← hd, hn]⟩
  known := by
    intro x d hx c hc
    rw [calls_dissolve]
    obtain ⟨e, he, hcalls⟩ := calls_of_get?_dissolve hb hp hx
    rcases hcalls c hc with hc | hc
    · exact h.known x e he c hc
    · exact h.known id b hb c hc
  calls := by
    rw [calls_dissolve]
    exact h.calls

theorem kept_dissolve (ht : IsTree t.get? rootId) (hb : t.get? id = some b)
    (hp : b.parent = some p) (token : Text) {x : BlockId} {e : Block} (hx : t.get? x = some e)
    (hne : x ≠ id) : ∃ d, (t.dissolve id token).get? x = some d ∧ d.name = e.name := by
  obtain ⟨d, hd, hn, -⟩ := (dissolved ht hb hp token).kept x e hx hne
  exact ⟨d, hd, hn⟩

end Dissolve

end BlockTemplate.Tree
