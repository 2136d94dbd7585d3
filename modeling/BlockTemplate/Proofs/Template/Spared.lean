import BlockTemplate.Proofs.Call.Memo
import BlockTemplate.Proofs.Template.Session
import BlockTemplate.Proofs.Tree.Spare

/-!
# Edits that spare other blocks

A block that is added takes the place of a placeholder, and a block that is replaced goes with its
descendants. All other blocks stay what they were, with what is kept for them, although slots and the
numbers of calls are given out again and inclusions are resolved on the way.
-/

namespace BlockTemplate

open Inclusion (numbered)

namespace Target

def site : Target → BlockId
  | .under parent _ => parent
  | .over id _ => id

def removed (t : Tree) : Target → List BlockId
  | .under _ _ => []
  | .over id _ => t.descendants id

end Target

namespace Template

variable {kept : BlockId → Prop} {base : Nat} {t u v : Template} {e : Engine} {f : Fragment}
  {target : Target} {top : Text} {d : Dialect}
  {loader : Text → Text → Target → Template → Files → Loaded} {x : BlockId}

/--
The blocks to be kept are there, and none of them has the placeholder of an inclusion whose number is
still to be given out.
-/
structure Aloof (kept : BlockId → Prop) (base : Nat) (t : Template) : Prop where
  live : ∀ x, kept x → t.tree.Live x
  vars : ∀ x b, kept x → t.tree.get? x = some b → ∀ k, base ≤ k → numbered k ∉ b.vars
  given : base ≤ t.nextInclusion

structure Aside (kept : BlockId → Prop) (t u : Template) : Prop where
  tree : t.tree.Spares kept u.tree
  grown : t.nextInclusion ≤ u.nextInclusion

theorem Aside.refl (kept : BlockId → Prop) (t : Template) : Aside kept t t :=
  ⟨.refl kept t.tree, Nat.le_refl _⟩

theorem Aside.trans (h₁ : Aside kept t u) (h₂ : Aside kept u v) : Aside kept t v :=
  ⟨h₁.tree.trans h₂.tree, Nat.le_trans h₁.grown h₂.grown⟩

theorem Aside.aloof (h : Aside kept t u) (ha : Aloof kept base t) : Aloof kept base u where
  live := by
    intro x hx
    obtain ⟨b, hb⟩ := ha.live x hx
    exact ⟨b, (h.tree.blocks x hx).trans hb⟩
  vars := by
    intro x b hx hb
    exact ha.vars x b hx ((h.tree.blocks x hx).symm.trans hb)
  given := Nat.le_trans ha.given h.grown

theorem Readies.aside (hr : Readies t u) (h : t.tree.Sound) : Aside kept t u := by
  refine ⟨?_, hr.numbers⟩
  rw [hr.tree]
  exact h.spares_withCalls hr.grown

theorem aside_attach (d : Dialect) (h : t.tree.Sound) (ht : t.Admits top target)
    (hf : f.Ready top t.tree.calls) (hlive : ∀ x, kept x → t.tree.Live x) (hsite : ¬ kept target.site)
    (hremoved : ∀ x ∈ target.removed t.tree, ¬ kept x) :
    Aside kept t (t.attach d f target).2 := by
  match target, ht with
  | .under p placeholder, _ =>
    exact ⟨Tree.spares_graftUnder f _ hlive hsite, Nat.le_refl _⟩
  | .over id keepOutput, ⟨b, hb, _⟩ =>
    exact ⟨Tree.spares_replace h.tree hb hf.tree hlive hsite hremoved, Nat.le_refl _⟩

def SparesFiles (kept : BlockId → Prop) (base : Nat)
    (loader : Text → Text → Target → Template → Files → Loaded) : Prop :=
  ∀ file top p placeholder t fs, t.tree.Sound → t.tree.Live p → ¬ kept p → Aloof kept base t →
    Aside kept t (loader file top (.under p placeholder) t fs).2.1

theorem aside_dissolve (ht : t.tree.Sound) (hc : Carried t u) (ha : Aside kept t u)
    (hlive : ∀ x, kept x → t.tree.Live x) {name : Text} {id : BlockId}
    (hnew : t.tree.contains name = false) (hid : u.tree.lookup name = .ok id) (token : Text) :
    Aside kept t { u with tree := u.tree.dissolve id token } := by
  obtain ⟨hvacant, b, p, hb, hp⟩ := hc.new_block ht hnew hid
  -- A block to be kept is the same before and after, so that `id` would be live beside it.
  have hsame : ∀ x c, kept x → u.tree.get? x = some c → t.tree.get? x = some c := fun x c hx hxc =>
    (ha.tree.blocks x hx).symm.trans hxc
  refine ha.trans ⟨Tree.spares_dissolve hb hp token ?_ ?_ ?_, Nat.le_refl _⟩
  · exact fun hx => hvacant (hlive id hx)
  · intro hx
    obtain ⟨g, hg⟩ := hc.sound.tree.parent_live id b p hb hp
    obtain ⟨c, hcc, -⟩ := ht.tree.child_live (hsame p g hx hg) (hc.sound.tree.mem_children hg hb hp)
    exact hvacant ⟨c, hcc⟩
  · intro x hm hx
    obtain ⟨g, hg, hgp⟩ := hc.sound.tree.child_live hb hm
    exact hvacant (ht.tree.parent_live x g id (hsame x g hx hg) hgp)

theorem aside_pull (hl : IncludesFiles loader) (hs : SparesFiles kept base loader)
    (h : t.tree.Sound) (ha : Aloof kept base t) {i : Inclusion}
    (hi : ∃ k, base ≤ k ∧ i.name = numbered k) (fs : Files) :
    Aside kept t (pull d loader i t fs).2.1 := by
  rcases pull_cases d loader i t fs with ⟨fault, -, hpull⟩ | ⟨p, r, hp, rfl, -, hr⟩
  · rw [hpull]
    exact .refl kept t
  · obtain ⟨b, hb, hvar⟩ := Tree.live_of_owner h.tree hp
    obtain ⟨k, hk, hname⟩ := hi
    have hnot : ¬ kept p := fun hx => ha.vars p b hx hb k hk (hname ▸ hvar)
    have hinc := hl i.path i.name p i.name t fs h ⟨b, hb⟩
    have haside := hs i.path i.name p i.name t fs h ⟨b, hb⟩ hnot ha
    rcases hr with hloaded | ⟨hw, id, hid, hdissolved⟩
    · rw [hloaded]
      exact haside
    · rw [hdissolved]
      exact aside_dissolve h hinc.carried haside ha.live (hinc.fresh hw) hid _

theorem aside_pullAll (hl : IncludesFiles loader) (hs : SparesFiles kept base loader)
    {is : List Inclusion} (hi : ∀ i ∈ is, ∃ k, base ≤ k ∧ i.name = numbered k) (h : t.tree.Sound)
    (ha : Aloof kept base t) (unsaved : Option Fault) (fs : Files) :
    Aside kept t (pullAll d loader is unsaved t fs).2.1 := by
  have hstep : ∀ i ∈ is, ∀ u fs, Carried t u ∧ Aside kept t u →
      Carried t (pull d loader i u fs).2.1 ∧ Aside kept t (pull d loader i u fs).2.1 := by
    rintro i hm u fs ⟨hc, hu⟩
    exact ⟨hc.trans (carried_pull hl hc.sound i fs),
      hu.trans (aside_pull hl hs hc.sound (hu.aloof ha) (hi i hm) fs)⟩
  exact (pullAll_preserves (P := fun u _ => Carried t u ∧ Aside kept t u) hstep unsaved
    ⟨carried_refl h, .refl kept t⟩).2

theorem sparesFiles_load (e : Engine) (allowed : Nat) : SparesFiles kept base (load e allowed) := by
  induction allowed with
  | zero => exact fun _ _ _ _ t _ _ _ _ _ => .refl kept t
  | succ allowed ih =>
    intro file top p placeholder t fs h hp hnot ha
    rcases load_readies e allowed file top (.under p placeholder) h fs with
      ⟨u, fault, hload, hu, -⟩ | ⟨u, f, is, hu, hready, hnamed, hi, hload⟩
    · rw [hload]
      exact hu.aside h
    · have hadmits : u.Admits top (.under p placeholder) := hu.carried.keeps.live hp
      have haside := (hu.aside h).trans (aside_attach e.dialect hu.carried.sound hadmits hready
        ((hu.aside h).aloof ha).live hnot fun x hx => absurd hx List.not_mem_nil)
      have htree := tree_attach e.dialect hu.carried.sound hadmits hready hnamed
      rw [hload]
      refine haside.trans (aside_pullAll (includes_load e allowed) ih ?_ htree (haside.aloof ha) none fs)
      intro i hm
      obtain ⟨k, hk, -, hname⟩ := hi i hm
      exact ⟨k, Nat.le_trans ha.given hk, hname⟩

/-- A block means what it meant: it and its calls are the same, and so is what is kept for it. -/
structure Spared (t u : Template) (x : BlockId) : Prop where
  block : u.tree.get? x = t.tree.get? x
  calls : ∀ b, t.tree.get? x = some b → ∀ c ∈ b.calls,
    ∃ call, t.tree.calls.get? c = some call ∧ u.tree.calls.get? c = some call
  output : u.state.output x = t.state.output x
  touched : u.state.isTouched x = t.state.isTouched x
  hidden : u.state.isHidden x = t.state.isHidden x

/-- What an edit at a target, if there is one, makes of a template. -/
structure Confined (t : Template) (target : Except Fault Target) (r : Except Fault Unit × Template) :
    Prop where
  blocks : ∀ x, t.tree.Live x →
    (∀ g, target = .ok g → x ≠ g.site ∧ x ∉ g.removed t.tree) → Spared t r.2 x
  current :
    (∃ g, target = .ok g ∧
      r.2.current = if t.current ∈ g.removed t.tree then rootId else t.current) ∨
    (∃ fault, r.1 = .error fault) ∧ r.2.current = t.current ∧ ∀ x, t.tree.Live x → Spared t r.2 x
  locals : r.2.state.locals = t.state.locals
  globals : r.2.state.globals = t.state.globals

def GivenOut (t : Template) : Prop :=
  ∀ x b, t.tree.get? x = some b → ∀ k, numbered k ∈ b.vars → k < t.nextInclusion

theorem spared_of_aside {kept : BlockId → Prop} (h : t.tree.Sound) (ha : Aside kept t u)
    (hx : kept x) (hs : u.state.SameAt x t.state) : Spared t u x where
  block := ha.tree.blocks x hx
  calls := by
    intro b hb c hc
    obtain ⟨call, hcall⟩ := h.known x b hb c hc
    exact ⟨call, hcall, (ha.tree.calls x b hx hb c hc).trans hcall⟩
  output := hs.output
  touched := by rw [State.isTouched, State.isTouched, hs.marks]
  hidden := by rw [State.isHidden, State.isHidden, hs.marks]

theorem readies_refl (h : t.tree.Sound) : Readies t t :=
  ⟨carried_refl h, rfl, .refl t.tree.calls, Nat.le_refl _⟩

theorem Readies.spared (hr : Readies t u) (h : t.tree.Sound) (hx : t.tree.Live x) :
    Spared t u x := by
  have ha : Aside t.tree.Live t u := hr.aside h
  exact spared_of_aside h ha hx (hr.carried.state ▸ .refl x t.state)

theorem Readies.confined (hr : Readies t u) (h : t.tree.Sound) (target : Except Fault Target)
    (fault : Fault) : Confined t target (.error fault, u) where
  blocks := fun _ hx _ => hr.spared h hx
  current := .inr ⟨⟨fault, rfl⟩, hr.carried.current, fun _ hx => hr.spared h hx⟩
  locals := by rw [hr.carried.state]
  globals := by rw [hr.carried.state]

theorem state_attach (d : Dialect) (t : Template) (f : Fragment) (target : Target) :
    (t.attach d f target).2.state.locals = t.state.locals ∧
      (t.attach d f target).2.state.globals = t.state.globals ∧
      ∀ x, x ≠ target.site → x ∉ target.removed t.tree →
        (t.attach d f target).2.state.SameAt x t.state := by
  match target with
  | .under p placeholder => exact ⟨rfl, rfl, fun x _ _ => .refl x t.state⟩
  | .over id keepOutput =>
    obtain ⟨hlocals, hglobals⟩ := State.variables_forgetAll (t.tree.descendants id) t.state
    cases keepOutput with
    | true =>
      refine ⟨hlocals, hglobals, fun x hx hout => ?_⟩
      exact (State.sameAt_unmark _ hx).trans (State.sameAt_forgetAll t.state hout)
    | false =>
      refine ⟨hlocals, hglobals, fun x hx hout => ?_⟩
      exact (State.sameAt_unmark _ hx).trans
        ((State.sameAt_clearOutput _ hx).trans (State.sameAt_forgetAll t.state hout))

theorem current_attach (d : Dialect) (t : Template) (f : Fragment) (target : Target) :
    (t.attach d f target).2.current =
      if t.current ∈ target.removed t.tree then rootId else t.current := by
  match target with
  | .under p placeholder => exact (if_neg List.not_mem_nil).symm
  | .over id keepOutput => rfl

theorem Readies.removed (hr : Readies t u) (target : Target) :
    target.removed u.tree = target.removed t.tree := by
  match target with
  | .under p placeholder => rfl
  | .over id keepOutput =>
    have ho : u.tree.outline? id = t.tree.outline? id := by
      rw [hr.tree]
      exact Tree.outlineTo_calls t.tree u.tree.calls _ id
    simp only [Target.removed, Tree.descendants, Tree.preorder, ho]

theorem Readies.confined_pullAll (hr : Readies t u) (h : t.tree.Sound) (hgiven : t.GivenOut)
    (ht : t.Admits top target) (hf : f.Ready top u.tree.calls)
    (hn : f.Named u.tree (Fragment.leavingNames u.tree target.replaced)) {is : List Inclusion}
    (hi : ∀ i ∈ is, ∃ k, t.nextInclusion ≤ k ∧ i.name = numbered k) (allowed : Nat) (fs : Files)
    (r : Except Fault Unit) : Confined t (.ok target)
      (r, (pullAll e.dialect (load e allowed) is none (u.attach e.dialect f target).2 fs).2.1) := by
  let kept : BlockId → Prop := fun x =>
    t.tree.Live x ∧ x ≠ target.site ∧ x ∉ target.removed t.tree
  have haloof : Aloof kept t.nextInclusion t := by
    refine ⟨fun x hx => hx.1, ?_, Nat.le_refl _⟩
    intro x b _ hb k hk hm
    exact absurd (hgiven x b hb k hm) (Nat.not_lt.mpr hk)
  have hadmits := hr.carried.admits ht
  have hready : Aside kept t u := hr.aside h
  have hattach := aside_attach e.dialect hr.carried.sound hadmits hf (hready.aloof haloof).live
    (fun hx => hx.2.1 rfl) (fun x hm hx => hx.2.2 (hr.removed target ▸ hm))
  have htree := tree_attach e.dialect hr.carried.sound hadmits hf hn
  have hall := hready.trans (hattach.trans (aside_pullAll (d := e.dialect) (includes_load e allowed)
    (sparesFiles_load e allowed) hi htree ((hready.trans hattach).aloof haloof) none fs))
  have hcarried := carried_pullAll (d := e.dialect) (includes_load e allowed) is htree none fs
  obtain ⟨hlocals, hglobals, hsame⟩ := state_attach e.dialect u f target
  refine ⟨?_, .inl ⟨target, rfl, ?_⟩, ?_, ?_⟩
  · intro x hx hout
    obtain ⟨hsite, hremoved⟩ := hout target rfl
    refine spared_of_aside h hall ⟨hx, hsite, hremoved⟩ ?_
    rw [hcarried.state, ← hr.carried.state]
    exact hsame x hsite (hr.removed target ▸ hremoved)
  · rw [hcarried.current, current_attach, hr.removed, hr.carried.current]
  · rw [hcarried.state, hlocals, hr.carried.state]
  · rw [hcarried.state, hglobals, hr.carried.state]

theorem confined_attachSource (h : t.tree.Sound) (hgiven : t.GivenOut) (ht : t.Admits top target)
    (source : Text) : Confined t (.ok target) (t.attachSource e top source target) := by
  have hfits := Fragment.fits_compile e.dialect t.tree top source target.replaced
  rw [attachSource]
  generalize Fragment.compile e.dialect t.tree top source target.replaced = r at hfits
  obtain ⟨r, calls⟩ := r
  have hreadies : Readies t (t.withCalls calls) :=
    ⟨carried_withCalls h hfits.grown (hfits.distinct h.calls), rfl, hfits.grown, Nat.le_refl _⟩
  cases r with
  | error fault => exact hreadies.confined h _ fault
  | ok f =>
    have hn := hfits.named f rfl
    rw [← Tree.leavingNames_calls t.tree calls] at hn
    -- Source has no inclusions.
    exact hreadies.confined_pullAll h hgiven ht (hfits.ready f rfl) ⟨hn.nodup, hn.leaving⟩
      (List.forall_mem_nil _) 0 .empty (.ok ())

theorem confined_loadTop (h : t.tree.Sound) (hgiven : t.GivenOut) (ht : t.Admits top target)
    (file : Text) (fs : Files) : Confined t (.ok target)
      ((loadTop e file top target t fs).1, (loadTop e file top target t fs).2.1) := by
  rw [loadTop]
  rcases load_readies e e.maxDepth file top target h fs with
    ⟨u, fault, hload, hu, -⟩ | ⟨u, f, is, hu, hready, hnamed, hi, hload⟩
  · rw [hload]
    exact hu.confined h _ fault
  · rw [hload]
    refine hu.confined_pullAll h hgiven ht hready hnamed (fun i hm => ?_) e.maxDepth fs _
    obtain ⟨k, hk, -, hname⟩ := hi i hm
    exact ⟨k, hk, hname⟩

end Template

inductive BlockEdit where
  | add (placeholder block source : Text)
  | addFile (placeholder block file : Text)
  | replace (block source : Text) (keepOutput : Bool)
  | replaceFile (block file : Text) (keepOutput : Bool)

namespace BlockEdit

open Template

def target (t : Template) : BlockEdit → Except Fault Target
  | .add placeholder block _ | .addFile placeholder block _ =>
    (t.placeFor placeholder block).map fun p => .under p placeholder
  | .replace block _ keepOutput | .replaceFile block _ keepOutput =>
    (t.tree.lookup block).map fun id => .over id keepOutput

def run (e : Engine) (t : Template) (fs : Files) : BlockEdit → Except Fault Unit × Template
  | .add placeholder block source => t.addBlock e placeholder block source
  | .addFile placeholder block file =>
    let r := t.addBlockFile e placeholder block file fs
    (r.1, r.2.1)
  | .replace block source keepOutput => t.replaceBlock e block source keepOutput
  | .replaceFile block file keepOutput =>
    let r := t.replaceBlockFile e block file keepOutput fs
    (r.1, r.2.1)

theorem confined_run {t : Template} (h : t.tree.Sound) (hgiven : t.GivenOut) (e : Engine)
    (fs : Files) (edit : BlockEdit) : Confined t (edit.target t) (edit.run e t fs) := by
  cases edit with
  | add placeholder block source =>
    rw [run, addBlock, target]
    cases hp : t.placeFor placeholder block with
    | error fault => exact (readies_refl h).confined h _ fault
    | ok p =>
      have hadmits : t.Admits block (.under p placeholder) := live_of_placeFor h hp
      exact confined_attachSource h hgiven hadmits source
  | addFile placeholder block file =>
    rw [run, addBlockFile, target]
    cases hp : t.placeFor placeholder block with
    | error fault => exact (readies_refl h).confined h _ fault
    | ok p =>
      have hadmits : t.Admits block (.under p placeholder) := live_of_placeFor h hp
      exact confined_loadTop h hgiven hadmits file fs
  | replace block source keepOutput =>
    rw [run, replaceBlock, target]
    cases hid : t.tree.lookup block with
    | error fault => exact (readies_refl h).confined h _ fault
    | ok id =>
      have hadmits : t.Admits block (.over id keepOutput) := get?_of_lookup hid
      exact confined_attachSource h hgiven hadmits source
  | replaceFile block file keepOutput =>
    rw [run, replaceBlockFile, target]
    cases hid : t.tree.lookup block with
    | error fault => exact (readies_refl h).confined h _ fault
    | ok id =>
      have hadmits : t.Admits block (.over id keepOutput) := get?_of_lookup hid
      exact confined_loadTop h hgiven hadmits file fs

end BlockEdit

end BlockTemplate
