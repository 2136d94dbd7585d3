import BlockTemplate.Proofs.Call.Agree
import BlockTemplate.Proofs.Template.Stripped

/-!
# Replacing the root

Source put in place of the root takes the place of all blocks. If the old template has no calls, or
the source makes none, the template then has the blocks and the calls of one compiled from the
source. Nothing is kept of what was rendered but whether the root ever was: a root that was rendered
is not rendered again when its output is asked for.
-/

namespace BlockTemplate

open Lookup (IsTree Reach)

namespace Outline

theorem Mirrors.unique {look : Lookup} {o o' : Outline} (h : Mirrors look o)
    (h' : Mirrors look o') (hid : o.id = o'.id) : o = o' := by
  induction h generalizing o' with
  | @node id b cs hb hcs _ ih =>
    obtain @⟨id', b', cs', hb', hcs', hm'⟩ := h'
    cases hid
    rw [hb, Option.some.injEq] at hb'
    subst hb'
    have hlist : ∀ (xs ys : List Outline), (∀ x ∈ xs, x ∈ cs) → (∀ y ∈ ys, y ∈ cs') →
        xs.map Outline.id = ys.map Outline.id → xs = ys := by
      intro xs
      induction xs with
      | nil =>
        intro ys _ _ hxy
        exact (List.map_eq_nil_iff.mp hxy.symm).symm
      | cons x xs ihl =>
        intro ys hx hy hxy
        cases ys with
        | nil => cases hxy
        | cons y ys =>
          rw [List.map_cons, List.map_cons, List.cons.injEq] at hxy
          rw [ih x (hx x List.mem_cons_self) (hm' y (hy y List.mem_cons_self)) hxy.1,
            ihl ys (fun z hz => hx z (List.mem_cons_of_mem x hz))
              (fun z hz => hy z (List.mem_cons_of_mem y hz)) hxy.2]
    rw [hlist cs cs' (fun _ hx => hx) (fun _ hy => hy) (hcs.trans hcs'.symm)]

end Outline

namespace Tree

variable {t u : Tree} {f : Fragment}

theorem outline?_congr (ht : IsTree t.get? rootId) (h : ∀ x, t.get? x = u.get? x) (id : BlockId) :
    t.outline? id = u.outline? id := by
  have hlook : u.get? = t.get? := funext fun x => (h x).symm
  have hu : IsTree u.get? rootId := hlook ▸ ht
  cases hb : t.get? id with
  | none => rw [outline?_of_vacant hb, outline?_of_vacant ((h id).symm.trans hb)]
  | some b =>
    obtain ⟨o, ho, hid, hm⟩ := outline?_of_live ht hb
    obtain ⟨o', ho', hid', hm'⟩ := outline?_of_live hu ((h id).symm.trans hb)
    rw [ho, ho', hm.unique (hlook ▸ hm') (hid.trans hid'.symm)]

structure Bare (t : Tree) : Prop where
  root : ∃ b, t.get? rootId = some b ∧ b.parent = none ∧ b.children = []
  alone : ∀ x, x ≠ rootId → t.get? x = none

theorem bare_empty (calls : CallTable) : ({ Tree.empty with calls := calls } : Tree).Bare where
  root := ⟨_, rfl, rfl, rfl⟩
  alone := by
    intro x hx
    exact (get?_empty x).trans (if_neg hx)

theorem bare_prune (h : t.Sound) : (t.prune rootId).Bare := by
  obtain ⟨b, hb, hup⟩ := h.tree.top
  refine ⟨⟨_, (get?_prune h.tree hb rootId).1 rfl, hup, rfl⟩, ?_⟩
  intro x hx
  obtain ⟨-, hbelow, helse⟩ := get?_prune h.tree hb x
  by_cases hr : Reach t.get? rootId x
  · exact hbelow hx hr
  · rw [helse hr]
    cases hc : t.get? x with
    | none => rfl
    | some c => exact absurd (h.tree.reached x c hc) hr

theorem Bare.allocate_eq (h : t.Bare) (n : Nat) : t.allocate n = List.range' 1 n := by
  obtain ⟨b, hb, -⟩ := h.root
  have hpos := lt_of_get? hb
  obtain ⟨m, hm⟩ : ∃ m, t.slots.length = m + 1 := ⟨t.slots.length - 1, by omega⟩
  have hvacant : t.vacant = List.range' 1 m := by
    rw [vacant, hm, List.range_eq_range', List.range'_succ, List.filter_cons_of_neg,
      List.filter_eq_self.mpr]
    · intro x hx
      have hx0 := (List.mem_range'_1.mp hx).1
      rw [h.alone x (Nat.ne_of_gt hx0)]
      rfl
    · have hroot : t.get? 0 = some b := hb
      simp [hroot]
  rw [allocate, hvacant, hm, Nat.add_comm m 1, List.range'_append_1,
    List.take_range'_of_length_ge (Nat.le_add_left n m)]

theorem Bare.get?_graftOver (ht : t.Bare) (hu : u.Bare) (hf : IsTree f.look 0) (x : BlockId) :
    (t.graftOver rootId f).get? x = (u.graftOver rootId f).get? x := by
  obtain ⟨b, hb, hup, hleaf⟩ := ht.root
  obtain ⟨b', hb', hup', hleaf'⟩ := hu.root
  have hplant := plant_graftOver hf hb hleaf
  have hplant' := plant_graftOver hf hb' hleaf'
  rw [ht.allocate_eq] at hplant
  rw [hu.allocate_eq] at hplant'
  by_cases hx : ∃ i c, f.look i = some c ∧
      (rootId :: List.range' 1 (f.length - 1)).getD i rootId = x
  · obtain ⟨i, c, hc, rfl⟩ := hx
    rw [hplant.placed i c hc, hplant'.placed i c hc, hup, hup']
  · have hrest : ∀ i c, f.look i = some c →
        (rootId :: List.range' 1 (f.length - 1)).getD i rootId ≠ x :=
      fun i c hc he => hx ⟨i, c, hc, he⟩
    have hne : x ≠ rootId := by
      rintro rfl
      obtain ⟨c, hc, -⟩ := hf.top
      exact hrest 0 c hc rfl
    rw [hplant.rest x hrest, hplant'.rest x hrest, ht.alone x hne, hu.alone x hne]

end Tree

namespace Fragment

theorem leavingNames_root {t : Tree} (h : t.Sound) {name : Text} (hc : t.contains name = true) :
    name ∈ leavingNames t (some rootId) := by
  obtain ⟨id, hid⟩ := Option.isSome_iff_exists.mp hc
  obtain ⟨b, hb, hname⟩ := Tree.get?_of_find? hid
  obtain ⟨r, hr, -⟩ := h.tree.top
  exact (Tree.mem_namesUnder_iff h.tree hr).mpr ⟨id, b, h.tree.reached id b hb, hb, hname⟩

theorem exists_scanned {d : Dialect} {t : Tree} (h : t.Sound) {source : Text} {f : Fragment}
    {calls : CallTable}
    (hc : compile d .empty rootName source (some rootId) = (.ok f, calls)) :
    ∃ g, scanAll d g g .empty = (.ok f, calls) ∧
      compile d t rootName source (some rootId) = scanAll d g g t.calls := by
  rw [compile] at hc ⊢
  split at hc
  · cases hc
  · rename_i g hg
    split at hc
    · cases hc
    · rename_i hnames
      have hcheck : checkNames t (leavingNames t (some rootId)) [] g = .ok () :=
        checkNames_ok (checkNames_spec hnames).1 (by simp) fun _ _ => leavingNames_root h
      rw [hcheck]
      exact ⟨g, hc, rfl⟩

end Fragment

namespace Template

variable {t u v : Template} {e : Engine} {source : Text} {f : Fragment}

theorem rootRendered_forgetAll (ids : List BlockId) (s : State) :
    (ids.foldl State.forget s).rootRendered = s.rootRendered := by
  induction ids generalizing s with
  | nil => rfl
  | cons a ids ih => exact ih (s.forget a)

def overRoot (s : State) : State :=
  { locals := s.locals, globals := s.globals, rootRendered := s.rootRendered }

theorem erase_root_eq_empty {α : Type} {d : Dict BlockId α}
    (h : ∀ x v, d.get? x = some v → x = rootId) : d.erase rootId = ∅ := by
  refine Dict.ext_get? fun x => ?_
  cases hx : (d.erase rootId).get? x with
  | none => rfl
  | some v =>
    obtain ⟨hne, hv⟩ := State.get?_of_erase hx
    exact absurd (h x v hv) hne

theorem state_over_root (h : t.Sound) :
    (((t.tree.descendants rootId).foldl State.forget t.state).clearOutput rootId).unmark rootId =
      overRoot t.state := by
  obtain ⟨r, hr, -⟩ := h.tree.tree.top
  have hwithin := h.state.forgetAll (t.tree.descendants rootId)
  obtain ⟨hlocals, hglobals⟩ := State.variables_forgetAll (t.tree.descendants rootId) t.state
  have hflag := rootRendered_forgetAll (t.tree.descendants rootId) t.state
  generalize (t.tree.descendants rootId).foldl State.forget t.state = s at *
  -- Every block but the root lies below it, so it is among those that are forgotten.
  have hroot : ∀ x, t.tree.Live x ∧ x ∉ t.tree.descendants rootId → x = rootId := by
    rintro x ⟨⟨c, hc⟩, hx⟩
    by_contra hne
    exact hx ((Tree.mem_descendants_iff h.tree.tree hr).mpr ⟨h.tree.tree.reached x c hc, hne⟩)
  have houtputs : s.outputs.erase rootId = ∅ :=
    erase_root_eq_empty fun x text hx => hroot x (hwithin.outputs x text hx)
  have hmarks : s.marks.erase rootId = ∅ :=
    erase_root_eq_empty fun x m hx => hroot x (hwithin.marks x m hx)
  rw [State.clearOutput, State.unmark, overRoot, ← hlocals, ← hglobals, ← hflag]
  dsimp only
  rw [houtputs, hmarks]

structure Same (t u : Template) : Prop where
  blocks : ∀ x, t.tree.get? x = u.tree.get? x
  calls : t.tree.calls.Agrees u.tree.calls

def treeOverRoot (t : Template) (calls : CallTable) (f : Fragment) : Tree :=
  ((({ t.tree with calls := calls } : Tree).prune rootId).graftOver rootId f).releaseCalls

theorem replaceBlock_of_compile (h : t.Sound) {calls' : CallTable}
    (hc' : Fragment.compile e.dialect t.tree rootName source (some rootId) = (.ok f, calls'))
    (calls : CallTable) :
    ∃ u, t.replaceBlock e rootName source false = (.ok (), u) ∧
      u.tree = treeOverRoot t calls' f ∧ u.state = overRoot t.state ∧ ∀ x, u.tree.get? x =
        (({ Tree.empty with calls := calls } : Tree).graftOver rootId f).get? x := by
  have hfits := Fragment.fits_compile e.dialect t.tree rootName source (some rootId)
  rw [hc'] at hfits
  have hf : IsTree f.look 0 := (hfits.ready f rfl).tree
  have hsound := h.tree.withCalls hfits.grown (hfits.distinct h.tree.calls)
  have hblocks := (Tree.bare_prune hsound).get?_graftOver (Tree.bare_empty calls) hf
  have hstate := state_over_root (h.carried (carried_withCalls h.tree hfits.grown
    (hfits.distinct h.tree.calls)))
  refine ⟨((t.withCalls calls').attach e.dialect f (.over rootId false)).2, ?_, rfl, hstate,
    hblocks⟩
  rw [replaceBlock, lookup_root h.tree]
  dsimp only
  rw [attachSource, Target.replaced, hc']

theorem calls_over_silent_root (h : t.Sound) (hno : t.tree.calls.Agrees .empty)
    {calls' : CallTable}
    (hc' : Fragment.compile e.dialect t.tree rootName source (some rootId) = (.ok f, calls')) :
    (treeOverRoot t calls' f).calls = calls' := by
  have hfits := Fragment.fits_compile e.dialect t.tree rootName source (some rootId)
  rw [hc'] at hfits
  have hsound := h.tree.withCalls hfits.grown (hfits.distinct h.tree.calls)
  obtain ⟨leaf, hl, -, hb⟩ := (Tree.bare_prune hsound).root
  have hrelease := release_graftOver (hfits.ready f rfl).tree hl hb fun i c hi => by
    rcases Fragment.notes_compile hc' hi with hold | hmade
    · rw [hno.get] at hold
      cases hold
    · exact hmade
  rw [treeOverRoot, hrelease, Tree.graftOver, Tree.calls_graftAt]
  rfl

theorem agrees_of_silent {u : Tree} (hd : u.calls.Distinct)
    (hno : ∀ x b, u.get? x = some b → b.calls = []) : u.releaseCalls.calls.Agrees .empty where
  get := by
    intro id
    have hused : id ∉ u.usedCalls := by
      intro hm
      rw [Tree.usedCalls, List.mem_flatMap] at hm
      obtain ⟨slot, hslot, hid⟩ := hm
      cases slot with
      | none => cases hid
      | some b =>
        obtain ⟨x, hx⟩ := List.mem_iff_getElem?.mp hslot
        rw [Option.map_some, Option.getD_some, hno x b (Tree.get?_eq_some_iff.mpr hx)] at hid
        cases hid
    rw [Tree.releaseCalls, CallTable.get?_keepOnly, if_neg hused]
    rfl
  distinct := hd.keepOnly u.usedCalls

theorem replaceBlock_root (h : t.Sound) (hv : compile e source = .ok v)
    (hno : t.tree.calls.Agrees .empty ∨ v.tree.calls.Agrees .empty) :
    ∃ u, t.replaceBlock e rootName source false = (.ok (), u) ∧ u.Same v ∧
      u.state = overRoot t.state := by
  have hfresh := (sound_compile hv).tree
  rw [Template.compile, setTemplate] at hv
  cases hc : Fragment.compile e.dialect .empty rootName source (some rootId) with
  | mk r calls =>
    cases r with
    | error fault => rw [hc] at hv; cases hv
    | ok f =>
      rw [hc] at hv
      cases hv
      have hcalls : (Tree.graftOver { Tree.empty with calls := calls } rootId f).calls = calls :=
        Tree.calls_graftAt _ _ _ _
      rw [hcalls] at hno
      obtain ⟨g, hscan, hcompile⟩ := Fragment.exists_scanned h.tree hc
      rcases hno with hno | hno
      · obtain ⟨hr, hagree⟩ := Fragment.scanAll_agrees hno e.dialect g g
        rw [hscan] at hr hagree
        rw [← Prod.eta (Fragment.scanAll e.dialect g g t.tree.calls), hr] at hcompile
        obtain ⟨u, hu, htree, hstate, hblocks⟩ := replaceBlock_of_compile h hcompile calls
        refine ⟨u, hu, ⟨hblocks, ?_⟩, hstate⟩
        rw [htree, calls_over_silent_root h hno hcompile, hcalls]
        exact hagree
      · have hfits := Fragment.fits_compile e.dialect .empty rootName source (some rootId)
        rw [hc] at hfits
        have hsilent : ∀ b ∈ f, b.calls = [] :=
          fun b hb => hno.eq_nil ((hfits.ready f rfl).known b hb)
        rw [Fragment.scanAll_silent (congrArg Prod.fst hscan) hsilent] at hcompile
        obtain ⟨u, hu, htree, hstate, hblocks⟩ := replaceBlock_of_compile h hcompile calls
        refine ⟨u, hu, ⟨hblocks, ?_⟩, hstate⟩
        rw [htree, hcalls]
        refine (agrees_of_silent ?_ ?_).trans hno.symm
        · rw [Tree.graftOver, Tree.calls_graftAt]
          exact h.tree.calls
        · intro x b hx
          have hknown := hfresh.known x b ((hblocks x).symm.trans (htree ▸ hx))
          rw [hcalls] at hknown
          exact hno.eq_nil hknown

theorem Same.renderAt (hs : u.Same v) (h : u.tree.Sound)
    (hstate : { u.state with rootRendered := true } = { v.state with rootRendered := true })
    (log : CallLog) :
    (u.renderAt e rootId log).1 = (v.renderAt e rootId log).1 ∧
      (u.renderAt e rootId log).2.1.state = (v.renderAt e rootId log).2.1.state ∧
      (u.renderAt e rootId log).2.2 = (v.renderAt e rootId log).2.2 := by
  have ho := Tree.outline?_congr h.tree hs.blocks rootId
  obtain ⟨r, hr, -⟩ := h.tree.top
  obtain ⟨o, hou, hid, -⟩ := Tree.outline?_of_live h.tree hr
  have hrun : Pass.run e u.tree.calls o u.state log = Pass.run e v.tree.calls o v.state log := by
    obtain ⟨i, b, cs⟩ := o
    obtain rfl : i = rootId := hid
    have henter : ∀ s : State, Pass.enter rootId ⟨s, ∅, log⟩ =
        ⟨{ s with rootRendered := true }, ∅, log⟩ := fun _ => rfl
    rw [Pass.run, Pass.run, Pass.block_agrees hs.calls, Pass.block, Pass.block, henter, henter,
      hstate]
  rw [Template.renderAt, Template.renderAt, ← ho, hou]
  dsimp only
  rw [hrun]
  exact ⟨rfl, rfl, rfl⟩

theorem output_root (h : t.tree.Sound) (log : CallLog) :
    (t.output e rootName log).1 = .ok (finish e
      (if t.state.rootRendered then t.state.output rootId
        else (t.renderAt e rootId log).2.1.state.output rootId)) := by
  rw [Template.output, lookup_root h]
  dsimp only
  rw [outputAt]
  cases hr : t.state.rootRendered <;> simp

def withVariables (t : Template) (s : State) : Template :=
  { t with state := { locals := s.locals, globals := s.globals } }

/--
A template whose root was never rendered puts out its new root as a template of the source does, if
it has no calls or the source makes none. If the root was rendered before, the output is empty until
it is rendered again, and the render is the same.
-/
theorem output_replaced_root (h : t.Sound) (hv : compile e source = .ok v)
    (hno : t.tree.calls.Agrees .empty ∨ v.tree.calls.Agrees .empty) (log : CallLog) :
    ∃ u, t.replaceBlock e rootName source false = (.ok (), u) ∧
      (u.output e rootName log).1 = (if t.state.rootRendered then .ok (finish e [])
        else ((v.withVariables t.state).output e rootName log).1) ∧
      (u.renderAt e rootId log).1 = ((v.withVariables t.state).renderAt e rootId log).1 ∧
      (u.renderAt e rootId log).2.1.state =
        ((v.withVariables t.state).renderAt e rootId log).2.1.state := by
  obtain ⟨u, hu, hsame, hstate⟩ := replaceBlock_root h hv hno
  have hsound : u.Sound := by
    have hs := sound_replaceBlock (e := e) h rootName source false
    rwa [hu] at hs
  have hfresh : (v.withVariables t.state).tree.Sound := (sound_compile hv).tree
  have hwith : u.Same (v.withVariables t.state) := ⟨hsame.blocks, hsame.calls⟩
  obtain ⟨hempty, hafter, -⟩ := hwith.renderAt hsound.tree (by rw [hstate]; rfl) log
  refine ⟨u, hu, ?_, hempty, hafter⟩
  rw [output_root hsound.tree, output_root hfresh, hafter, hstate]
  cases hr : t.state.rootRendered with
  | true =>
    rw [overRoot, if_pos hr]
    rfl
  | false =>
    rw [overRoot, if_neg (by simp [hr])]
    rfl

def rendered : Template :=
  ((empty.setTemplate .standard ['a']).2.output .standard rootName []).2.1

theorem replaced_root_not_rendered :
    compile .standard ['b'] = .ok (empty.setTemplate .standard ['b']).2 ∧
    (rendered.replaceBlock .standard rootName ['b'] false).1 = .ok () ∧
    ((rendered.replaceBlock .standard rootName ['b'] false).2.output .standard rootName []).1 =
      .ok [] ∧
    (((empty.setTemplate .standard ['b']).2.withVariables rendered.state).output .standard
      rootName []).1 = .ok ['b'] := by
  refine ⟨?_, by decide +kernel, by decide +kernel, by decide +kernel⟩
  have hset : (empty.setTemplate .standard ['b']).1 = .ok () := by decide +kernel
  rw [Template.compile]
  split
  · rename_i ht
    rw [ht]
  · rename_i ht
    rw [ht] at hset
    cases hset

end Template

end BlockTemplate
