import BlockTemplate.Proofs.Call.Agree
import BlockTemplate.Proofs.Template.Course
import BlockTemplate.Proofs.Template.Stripped
import BlockTemplate.Proofs.Tree.Stored

/-!
# Replacing a block again

Source that was put over a block compiles to the same blocks when it is put there again, because the
table of calls has all of its calls by then. So nothing grows however often it is done: the new
blocks go to the slots of the old ones, and the calls keep their numbers.
-/

namespace BlockTemplate

open Lookup (IsTree Reach Distinct Plant)

structure Block.Matches (b c : Block) : Prop where
  name : c.name = b.name
  content : c.content = b.content
  vars : c.vars = b.vars
  calls : c.calls = b.calls

namespace Block.Matches

variable {b c d : Block}

theorem refl (b : Block) : b.Matches b := ⟨rfl, rfl, rfl, rfl⟩

theorem symm (h : b.Matches c) : c.Matches b :=
  ⟨h.name.symm, h.content.symm, h.vars.symm, h.calls.symm⟩

theorem trans (h : b.Matches c) (h' : c.Matches d) : b.Matches d :=
  ⟨h'.name.trans h.name, h'.content.trans h.content, h'.vars.trans h.vars,
    h'.calls.trans h.calls⟩

theorem relocate (place : Nat → BlockId) (above : Option BlockId) (b : Block) :
    b.Matches (Tree.relocate place above b) := ⟨rfl, rfl, rfl, rfl⟩

end Block.Matches

namespace Tree

variable {t u v : Tree} {id : BlockId} {b : Block} {f : Fragment}

def written? (t : Tree) (name : Text) : Option (Text × List Text × List CallId) :=
  ((t.find? name).bind t.get?).map fun b => (b.content, b.vars, b.calls)

def FoundIn (t u : Tree) : Prop :=
  ∀ x b, t.get? x = some b → ∃ y c, u.get? y = some c ∧ b.Matches c

theorem written?_of_foundIn (hu : Distinct u.get?) (h : t.FoundIn u) (h' : u.FoundIn t)
    (name : Text) : u.written? name = t.written? name := by
  rw [written?, written?]
  cases hx : t.find? name with
  | none =>
    have hnone : u.find? name = none := by
      refine find?_eq_none_iff.mpr fun y c hy hn => ?_
      obtain ⟨x, b, hb, hm⟩ := h' y c hy
      exact find?_eq_none_iff.mp hx x b hb (hm.name.trans hn)
    rw [hnone]
    rfl
  | some x =>
    obtain ⟨b, hb, hn⟩ := get?_of_find? hx
    obtain ⟨y, c, hc, hm⟩ := h x b hb
    rw [(find?_eq_some_iff hu).mpr ⟨c, hc, hm.name.trans hn⟩, Option.bind_some, Option.bind_some, hc,
      hb, Option.map_some, Option.map_some, hm.content, hm.vars, hm.calls]

theorem liveCount_le_of_foundIn (hu : Distinct u.get?) (h : u.FoundIn t) :
    u.liveCount ≤ t.liveCount := by
  refine (List.subperm_of_subset (nodup_names hu) fun name hname => ?_).length_le
  obtain ⟨x, b, hb, rfl⟩ := mem_names_iff.mp hname
  obtain ⟨y, c, hc, hm⟩ := h x b hb
  exact mem_names_iff.mpr ⟨y, c, hc, hm.name⟩

def replace (t : Tree) (id : BlockId) (f : Fragment) : Tree :=
  ((t.prune id).graftOver id f).releaseCalls

/-- Under a block there is just a fragment, and the tree has no call that no block makes. -/
structure Holds (t : Tree) (id : BlockId) (f : Fragment) : Prop where
  fragment : IsTree f.look 0
  placed : ∀ i b, f.look i = some b → ∃ x c, Reach t.get? id x ∧ t.get? x = some c ∧ b.Matches c
  only : ∀ x c, Reach t.get? id x → t.get? x = some c → ∃ i b, f.look i = some b ∧ b.Matches c
  used : ∀ c call, t.calls.get? c = some call → c ∈ t.usedCalls

def placeOver (t : Tree) (id : BlockId) (f : Fragment) (i : Nat) : BlockId :=
  (id :: (t.prune id).allocate (f.length - 1)).getD i rootId

theorem plant_replace (h : t.Sound) (hb : t.get? id = some b) (hf : IsTree f.look 0) :
    Plant (t.prune id).get? (t.replace id f).get? f.look (t.placeOver id f) id
      { b with children := [] } :=
  plant_graftOver hf ((get?_prune h.tree hb id).1 rfl) rfl

theorem get?_calls_replace {c : CallId} (hc : c ∈ (t.replace id f).usedCalls) :
    (t.replace id f).calls.get? c = t.calls.get? c := by
  have hgraft : ((t.prune id).graftOver id f).calls = t.calls := calls_graftAt _ _ _ _
  have hc' : c ∈ ((t.prune id).graftOver id f).usedCalls := hc
  rw [replace, releaseCalls, CallTable.get?_keepOnly, if_pos hc', hgraft]

theorem holds_replace (h : t.Sound) (hb : t.get? id = some b) (hf : IsTree f.look 0) :
    (t.replace id f).Holds id f := by
  have hplant := plant_replace h hb hf
  refine ⟨hf, ?_, ?_, ?_⟩
  · intro i c hc
    exact ⟨_, _, hplant.reach_new (hf.reached i c hc), hplant.placed i c hc, .relocate _ _ c⟩
  · intro x c hx hc
    obtain ⟨i, d, hd, rfl⟩ := hplant.exists_of_reach hf hx
    rw [hplant.placed i d hd, Option.some.injEq] at hc
    subst hc
    exact ⟨i, d, hd, .relocate _ _ d⟩
  · intro c call hc
    rw [replace, releaseCalls, CallTable.get?_keepOnly] at hc
    split at hc
    · assumption
    · cases hc

section Again

variable (h : t.Sound) (hh : t.Holds id f) (hb : t.get? id = some b)
include h hh hb

theorem foundIn_replace : t.FoundIn (t.replace id f) := by
  have hplant := plant_replace h hb hh.fragment
  intro x c hx
  by_cases hr : Reach t.get? id x
  · obtain ⟨i, d, hd, hm⟩ := hh.only x c hr hx
    exact ⟨_, _, hplant.placed i d hd, hm.symm.trans (.relocate _ _ d)⟩
  · have hne : x ≠ id := by
      rintro rfl
      exact hr .refl
    have hkept : (t.prune id).get? x = some c := ((get?_prune h.tree hb x).2.2 hr).trans hx
    exact ⟨x, c, hplant.kept hkept hne, .refl c⟩

theorem replace_foundIn : (t.replace id f).FoundIn t := by
  have hplant := plant_replace h hb hh.fragment
  intro x c hx
  rcases hplant.cases hx with ⟨i, d, hd, rfl, rfl⟩ | ⟨hold, hout⟩
  · obtain ⟨y, c, -, hy, hm⟩ := hh.placed i d hd
    exact ⟨y, c, hy, (Block.Matches.relocate _ _ d).symm.trans hm⟩
  · have hne : x ≠ id := hplant.not_id hh.fragment hout
    obtain ⟨-, hbelow, helse⟩ := get?_prune h.tree hb x
    by_cases hr : Reach t.get? id x
    · rw [hbelow hne hr] at hold
      cases hold
    · exact ⟨x, c, (helse hr).symm.trans hold, .refl c⟩

theorem calls_replace : (t.replace id f).calls = t.calls := by
  have hgraft : ((t.prune id).graftOver id f).calls = t.calls := calls_graftAt _ _ _ _
  rw [replace, releaseCalls, hgraft]
  refine CallTable.keepOnly_of_used fun c call hc => ?_
  obtain ⟨x, d, hd, hmem⟩ := exists_of_mem_usedCalls (hh.used c call hc)
  obtain ⟨y, g, hg, hm⟩ := foundIn_replace h hh hb x d hd
  exact mem_usedCalls hg (hm.calls ▸ hmem)

theorem length_replace (hd : Distinct (t.replace id f).get?) {c : Block} (hc : f.head? = some c)
    (hn : b.name = c.name) : (t.replace id f).slots.length = t.slots.length := by
  have hlen : (t.replace id f).slots.length =
      max (t.prune id).slots.length (t.replace id f).liveCount :=
    length_graftOver_of_same ((get?_prune h.tree hb id).1 rfl) hc hn
  have hprune : (t.prune id).slots.length = t.slots.length :=
    (length_modify ..).trans (t.length_clear _)
  have hlive := liveCount_le_of_foundIn hd (replace_foundIn h hh hb)
  have := t.liveCount_le
  rw [hlen, hprune]
  omega

end Again

end Tree

theorem Fragment.compile_known {d : Dialect} {t u : Tree} {top source : Text}
    {replaced : Option BlockId} {f : Fragment} {calls : CallTable}
    (h : compile d t top source replaced = (.ok f, calls))
    (hfree : ∀ b ∈ f, u.contains b.name = true → b.name ∈ leavingNames u replaced)
    (hknown : ∀ b ∈ f, ∀ id ∈ b.calls, ∀ c, calls.get? id = some c →
      u.calls.find? c = some id) :
    compile d u top source replaced = (.ok f, u.calls) := by
  rw [compile] at h ⊢
  split at h
  · cases h
  · rename_i g hg
    split at h
    · cases h
    · rename_i hnames
      have hok : (scanAll d g g t.calls).1 = .ok f := congrArg Prod.fst h
      have hsame := names_of_forall₂ ((scanAll_spec d g g t.calls).2.2 f hok)
      have hcheck : checkNames u (leavingNames u replaced) [] g = .ok () := by
        refine checkNames_ok (checkNames_spec hnames).1 (by simp) fun b hb hc => ?_
        have hmem : b.name ∈ f.map (·.name) := hsame ▸ List.mem_map_of_mem hb
        obtain ⟨b', hb', hname⟩ := List.mem_map.mp hmem
        rw [← hname] at hc ⊢
        exact hfree b' hb' hc
      rw [hcheck]
      refine scanAll_known hok ?_
      rw [h]
      exact hknown

namespace Template

variable {e : Engine} {t u : Template} {block source : Text} {keep : Bool}

def replaceAgain (e : Engine) (t : Template) (block source : Text) :
    List Bool → Except Fault Template
  | [] => .ok t
  | keep :: keeps =>
    match t.replaceBlock e block source keep with
    | (.error fault, _) => .error fault
    | (.ok (), u) => replaceAgain e u block source keeps

/-- Templates of as many slots, the same calls and blocks that say the same. -/
structure Stays (t u : Template) : Prop where
  slots : u.tree.slots.length = t.tree.slots.length
  calls : u.tree.calls = t.tree.calls
  written : ∀ name, u.tree.written? name = t.tree.written? name

theorem Stays.refl (t : Template) : t.Stays t := ⟨rfl, rfl, fun _ => rfl⟩

theorem Stays.trans {v : Template} (h : t.Stays u) (h' : u.Stays v) : t.Stays v :=
  ⟨h'.slots.trans h.slots, h'.calls.trans h.calls, fun name =>
    (h'.written name).trans (h.written name)⟩

theorem replaceBlock_ok (h : t.replaceBlock e block source keep = (.ok (), u)) :
    ∃ id f calls, t.tree.lookup block = .ok id ∧
      Fragment.compile e.dialect t.tree block source (some id) = (.ok f, calls) ∧
      u.tree = ({ t.tree with calls := calls } : Tree).replace id f := by
  rw [replaceBlock] at h
  split at h
  · cases h
  · rename_i id hid
    rw [attachSource, Target.replaced] at h
    split at h
    · cases h
    · rename_i f calls hc
      cases h
      exact ⟨id, f, calls, hid, hc, rfl⟩

theorem exists_replaceBlock {id : BlockId} {f : Fragment} {calls : CallTable}
    (hid : t.tree.lookup block = .ok id)
    (hc : Fragment.compile e.dialect t.tree block source (some id) = (.ok f, calls)) (keep : Bool) :
    ∃ u, t.replaceBlock e block source keep = (.ok (), u) ∧
      u.tree = ({ t.tree with calls := calls } : Tree).replace id f := by
  refine ⟨((t.withCalls calls).attach e.dialect f (.over id keep)).2, ?_, rfl⟩
  rw [replaceBlock, hid]
  dsimp only
  rw [attachSource, Target.replaced, hc]

theorem sound_of_replaceBlock (ht : t.Sound)
    (hu : t.replaceBlock e block source keep = (.ok (), u)) : u.Sound := by
  have hs := sound_replaceBlock (e := e) ht block source keep
  rwa [hu] at hs

theorem stays_replaceBlock (ht : t.Sound) (hu : t.replaceBlock e block source keep = (.ok (), u))
    (keep' : Bool) : ∃ v, u.replaceBlock e block source keep' = (.ok (), v) ∧ u.Stays v := by
  have husound := sound_of_replaceBlock ht hu
  obtain ⟨id, f, calls, hid, hc, htree⟩ := replaceBlock_ok hu
  have hfits := Fragment.fits_compile e.dialect t.tree block source (some id)
  rw [hc] at hfits
  have hready := hfits.ready f rfl
  have hbase := ht.tree.withCalls hfits.grown (hfits.distinct ht.tree.calls)
  obtain ⟨b, hb, hname⟩ := get?_of_lookup hid
  have hholds : u.tree.Holds id f := htree ▸ Tree.holds_replace hbase hb hready.tree
  have hplant := Tree.plant_replace hbase hb hready.tree
  rw [← htree] at hplant
  -- The top block has the name and the slot of the old one.
  obtain ⟨top, htop, htopname⟩ := hready.top_name
  have hnew := hplant.placed 0 top htop
  rw [hplant.place_zero] at hnew
  have hid' : u.tree.lookup block = .ok id :=
    Tree.lookup_eq_ok_iff.mpr ((Tree.find?_eq_some_iff husound.tree.distinct).mpr ⟨_, hnew, htopname⟩)
  -- All names of the fragment are under the block, which gives them up.
  have hfree : ∀ c ∈ f, u.tree.contains c.name = true →
      c.name ∈ Fragment.leavingNames u.tree (some id) := by
    intro c hmem _
    obtain ⟨i, hi⟩ := List.mem_iff_getElem?.mp hmem
    obtain ⟨x, g, hx, hg, hm⟩ := hholds.placed i c hi
    exact (Tree.mem_namesUnder_iff husound.tree.tree hnew).mpr ⟨x, g, hx, hg, hm.name⟩
  -- All calls of the fragment are made in the tree, so none of them was released.
  have hknown : ∀ c ∈ f, ∀ i ∈ c.calls, ∀ call, calls.get? i = some call →
      u.tree.calls.find? call = some i := by
    intro c hmem i hi call hcall
    obtain ⟨j, hj⟩ := List.mem_iff_getElem?.mp hmem
    have hused : i ∈ u.tree.usedCalls := Tree.mem_usedCalls (hplant.placed j c hj) hi
    rw [CallTable.find?_eq_some_iff husound.tree.calls, htree,
      Tree.get?_calls_replace (htree ▸ hused)]
    exact hcall
  have hagain := Fragment.compile_known hc hfree hknown
  obtain ⟨v, hv, hvtree⟩ := exists_replaceBlock hid' hagain keep'
  have hvsound := sound_of_replaceBlock husound hv
  have hover : v.tree = u.tree.replace id f := hvtree
  refine ⟨v, hv, ?_, ?_, ?_⟩
  · rw [hover]
    exact Tree.length_replace husound.tree hholds hnew (hover ▸ hvsound.tree.distinct)
      (List.head?_eq_getElem?.trans htop) rfl
  · rw [hover]
    exact Tree.calls_replace husound.tree hholds hnew
  · rw [hover]
    exact Tree.written?_of_foundIn (hover ▸ hvsound.tree.distinct)
      (Tree.foundIn_replace husound.tree hholds hnew) (Tree.replace_foundIn husound.tree hholds hnew)

theorem stays_replaceAgain (ht : t.Sound) (hu : t.replaceBlock e block source keep = (.ok (), u))
    (keeps : List Bool) : ∃ v, u.replaceAgain e block source keeps = .ok v ∧ u.Stays v := by
  induction keeps generalizing t u keep with
  | nil => exact ⟨u, rfl, .refl u⟩
  | cons keep' keeps ih =>
    obtain ⟨v, hv, hstays⟩ := stays_replaceBlock ht hu keep'
    obtain ⟨w, hw, hrest⟩ := ih (sound_of_replaceBlock ht hu) hv
    refine ⟨w, ?_, hstays.trans hrest⟩
    rw [replaceAgain, hv]
    exact hw

end Template

namespace Session

/--
The tree of a template has as many slots as it ever had blocks at the same time, counted between all
the edits that have made it. An arena that keeps its empty slots on a stack has as many, and each
empty one on its stack once. Source that was put over a block can be put there again and again: the
slots stay as many, the calls keep their numbers, and every block says what it said.
-/
theorem slots_eq_peak (e : Engine) (fs : Files) (ops : List Operation) :
    let t := ((start fs).run e ops).template
    let edits := (start fs).course e [] ops
    Tree.Edited .empty edits t.tree ∧
    t.tree.slots.length = Tree.empty.peak edits ∧
    (Arena.start.run .empty edits).Mirrors t.tree ∧
    ∀ block source keep u, t.replaceBlock e block source keep = (.ok (), u) →
      ∀ keeps, ∃ v, u.replaceAgain e block source keeps = .ok v ∧ u.Stays v := by
  have hsound := sound_run e (s := start fs) Template.sound_empty ops
  have hedited := edited_run (e := e) (s := start fs) Template.sound_empty (.nil .empty) ops
  refine ⟨hedited, ?_, Arena.mirrors_start.run Tree.sound_empty hedited, ?_⟩
  · have hlive := Tree.liveCount_le_peak .empty ((start fs).course e [] ops)
    have hone : Tree.empty.slots.length = Tree.empty.liveCount := rfl
    rw [hedited.length_eq Tree.sound_empty]
    omega
  · intro block source keep u hu keeps
    exact Template.stays_replaceAgain hsound hu keeps

def pageFiles : Files :=
  (Files.empty.write "page.html".toList (Text.utf8 "<!-- INCLUDE part.html -->".toList)
    ⟨1, 0⟩).write "part.html".toList (Text.utf8 "<!-- BEGIN a -->func_h('v')<!-- END a -->".toList)
    ⟨1, 0⟩

def pageSteps : List Operation := [.loadFile "page.html".toList]

/-- The part is dissolved, and its slot is free. -/
theorem slots_eq_peak_page :
    let t := ((start pageFiles).run .standard pageSteps).template
    let edits := (start pageFiles).course .standard [] pageSteps
    (t.tree.slots.length = 3 ∧ t.tree.liveCount = 2 ∧ Tree.empty.peak edits = 3 ∧
      (Arena.start.run .empty edits).free = [1]) ∧
    ∃ u, t.replaceBlock .standard ['a'] ['z'] false = (.ok (), u) ∧
      ∀ keeps, ∃ v, u.replaceAgain .standard ['a'] ['z'] keeps = .ok v ∧ u.Stays v := by
  refine ⟨by decide +kernel, ?_⟩
  have hok : (((start pageFiles).run .standard pageSteps).template.replaceBlock .standard ['a'] ['z']
      false).1 = .ok () := by decide +kernel
  have hagain := (slots_eq_peak .standard pageFiles pageSteps).2.2.2 ['a'] ['z'] false
  generalize ((start pageFiles).run .standard pageSteps).template.replaceBlock .standard ['a'] ['z']
    false = r at hok hagain
  obtain ⟨r, u⟩ := r
  cases hok
  exact ⟨u, rfl, hagain u rfl⟩

end Session

end BlockTemplate
