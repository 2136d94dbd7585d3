import BlockTemplate.Proofs.Template.Interned
import BlockTemplate.Proofs.Template.Unsaved
import BlockTemplate.Proofs.Tree.Course

/-!
# The edits behind operations

Each operation that changes blocks is told as the edits that it makes to the tree, one by one, also
where it fails on the way. Setting or loading a template starts with a new tree. So the tree of a
template is at any time what a course of edits has made of an empty tree.
-/

namespace BlockTemplate

open BlockTemplate.Tree (Edited)

namespace Template

variable {e : Engine} {t u : Template} {f : Fragment} {top : Text} {d : Dialect} {fs : Files}
  {loader : Text → Text → Target → Template → Files → Loaded}
  {edits : Text → Text → Target → Template → Files → List TreeEdit}

def attachEdits (d : Dialect) (f : Fragment) : Target → List TreeEdit
  | .under parent placeholder => [.graftUnder d parent placeholder f]
  | .over id _ => [.prune id, .graftOver id f, .releaseCalls]

def sourceEdits (e : Engine) (t : Template) (top source : Text) (target : Target) :
    List TreeEdit :=
  .intern (Fragment.callsOf e.dialect t.tree top source target.replaced) ::
    match (Fragment.compile e.dialect t.tree top source target.replaced).1 with
    | .error _ => []
    | .ok f => attachEdits e.dialect f target

def newEdits (e : Engine) (source : Text) : Option (List TreeEdit) :=
  match (Fragment.compile e.dialect .empty rootName source (some rootId)).1 with
  | .error _ => none
  | .ok f =>
    some [.intern (Fragment.callsOf e.dialect .empty rootName source (some rootId)),
      .graftOver rootId f]

def dissolveEdits (d : Dialect) (i : Inclusion) (r : Loaded) : List TreeEdit :=
  match settled r.1, r.2.1.tree.lookup i.name with
  | .ok (), .ok id => [.dissolve id (d.token (childName i.name))]
  | _, _ => []

def pullEdits (d : Dialect) (load : Text → Text → Target → Template → Files → Loaded)
    (edits : Text → Text → Target → Template → Files → List TreeEdit) :
    List Inclusion → Template → Files → List TreeEdit
  | [], _, _ => []
  | i :: rest, t, fs =>
    match t.tree.owner i.name with
    | .error _ => []
    | .ok parent =>
      edits i.path i.name (.under parent i.name) t fs ++
        (dissolveEdits d i (load i.path i.name (.under parent i.name) t fs) ++
          match settled (pull d load i t fs).1 with
          | .error _ => []
          | .ok () => pullEdits d load edits rest (pull d load i t fs).2.1 (pull d load i t fs).2.2)

def loadEdits (e : Engine) :
    (allowed : Nat) → (file top : Text) → Target → Template → Files → List TreeEdit
  | 0, _, _, _, _, _ => []
  | allowed + 1, file, top, target, t, fs =>
    .intern (t.callsOf e fs file top target.replaced) ::
      match t.prepare e fs file top target.replaced with
      | (.error _, _) => []
      | (.ok p, u) =>
        attachEdits e.dialect p.fragment target ++
          pullEdits e.dialect (load e allowed) (loadEdits e allowed) p.inclusions
            (u.attach e.dialect p.fragment target).2 fs

theorem edited_attach (d : Dialect) (h : t.tree.Sound) {target : Target} (ht : t.Admits top target)
    (hr : f.Ready top t.tree.calls)
    (hn : f.Named t.tree (Fragment.leavingNames t.tree target.replaced)) :
    Edited t.tree (attachEdits d f target) (t.attach d f target).2.tree := by
  match target, ht with
  | .under p placeholder, hp => exact .cons ⟨hp, ⟨top, hr⟩, hn⟩ (.nil _)
  | .over id keepOutput, ⟨b, hb, hname⟩ =>
    subst hname
    have hleaf := (Tree.get?_prune h.tree hb id).1 rfl
    have hnamed := named_prune h hb hn
    exact .cons ⟨b, hb⟩ (.cons ⟨_, hleaf, rfl, hr, hnamed⟩ (.cons trivial (.nil _)))

theorem edited_attachSource (h : t.tree.Sound) {target : Target} (ht : t.Admits top target)
    (source : Text) :
    Edited t.tree (sourceEdits e t top source target) (t.attachSource e top source target).2.tree := by
  have hfits := Fragment.fits_compile e.dialect t.tree top source target.replaced
  have htable := Fragment.table_compile e.dialect t.tree top source target.replaced
  rw [sourceEdits, attachSource]
  generalize Fragment.compile e.dialect t.tree top source target.replaced = r at hfits htable
  obtain ⟨r, calls⟩ := r
  dsimp only at htable
  subst htable
  cases r with
  | error fault => exact .cons trivial (.nil _)
  | ok f =>
    have hc := carried_withCalls h hfits.grown (hfits.distinct h.calls)
    have hn := hfits.named f rfl
    refine .cons trivial (edited_attach e.dialect hc.sound (hc.admits ht) (hfits.ready f rfl) ?_)
    rw [withCalls, Tree.leavingNames_calls]
    exact ⟨hn.nodup, hn.leaving⟩

theorem edited_newEdits {source : Text} {new : List TreeEdit}
    (hnew : newEdits e source = some new) :
    (t.setTemplate e source).1 = .ok () ∧ Edited .empty new (t.setTemplate e source).2.tree := by
  have hfits := Fragment.fits_compile e.dialect .empty rootName source (some rootId)
  have htable := Fragment.table_compile e.dialect .empty rootName source (some rootId)
  rw [newEdits] at hnew
  rw [setTemplate]
  generalize Fragment.compile e.dialect .empty rootName source (some rootId) = r
    at hfits hnew htable
  obtain ⟨r, calls⟩ := r
  dsimp only at htable
  subst htable
  cases r with
  | error fault => cases hnew
  | ok f =>
    cases hnew
    have hn := hfits.named f rfl
    exact ⟨rfl, .cons trivial (.cons ⟨_, rfl, rfl, hfits.ready f rfl, hn.nodup, hn.leaving⟩ (.nil _))⟩

theorem setTemplate_of_newEdits {source : Text} (hnew : newEdits e source = none) :
    (t.setTemplate e source).2 = t ∧ ∃ fault, (t.setTemplate e source).1 = .error fault := by
  rw [newEdits] at hnew
  rw [setTemplate]
  generalize Fragment.compile e.dialect .empty rootName source (some rootId) = r at hnew
  obtain ⟨r, calls⟩ := r
  cases r with
  | error fault => exact ⟨rfl, fault, rfl⟩
  | ok f => cases hnew

theorem edited_dissolve (hl : IncludesFiles loader) (h : t.tree.Sound) {i : Inclusion} {p : BlockId}
    (hown : t.tree.owner i.name = .ok p) {r : Loaded}
    (hload : loader i.path i.name (.under p i.name) t fs = r) :
    Edited r.2.1.tree (dissolveEdits d i r) (pull d loader i t fs).2.1.tree := by
  rw [dissolveEdits]
  rcases settled_cases r.1 with hs | ⟨fault, hf, hw⟩
  · rw [pull_of_settled hown hload hs, hs]
    cases hid : r.2.1.tree.lookup i.name with
    | error fault => exact .nil _
    | ok id =>
      obtain ⟨b, hb, -⟩ := Tree.live_of_owner h.tree hown
      have hinc := hl i.path i.name p i.name t fs h ⟨b, hb⟩
      rw [hload] at hinc
      have hunsaved : ∀ fault, r.1 = .error fault → fault.isCacheWrite = true :=
        fun fault hf => isCacheWrite_of_settled (hf ▸ hs)
      obtain ⟨-, hblock⟩ := hinc.carried.new_block h (hinc.fresh hunsaved) hid
      exact .cons hblock (.nil _)
  · rw [pull_of_fault hown hload hf hw, settled_eq_error_iff.mpr ⟨hf, hw⟩]
    exact .nil _

def EditsFiles (load : Text → Text → Target → Template → Files → Loaded)
    (edits : Text → Text → Target → Template → Files → List TreeEdit) : Prop :=
  ∀ file top p placeholder t fs, t.tree.Sound → t.tree.Live p →
    Edited t.tree (edits file top (.under p placeholder) t fs)
      (load file top (.under p placeholder) t fs).2.1.tree

theorem edited_pullAll (hl : IncludesFiles loader) (he : EditsFiles loader edits)
    (is : List Inclusion) (unsaved : Option Fault) (h : t.tree.Sound) (fs : Files) :
    Edited t.tree (pullEdits d loader edits is t fs) (pullAll d loader is unsaved t fs).2.1.tree := by
  induction is generalizing t unsaved fs with
  | nil => cases unsaved <;> exact .nil _
  | cons i is ih =>
    have hcarried := carried_pull (d := d) hl h i fs
    rw [pullEdits]
    cases hown : t.tree.owner i.name with
    | error fault =>
      have hpull : pull d loader i t fs = (.error fault, t, fs) := by rw [pull, hown]
      rw [pullAll_of_fault hpull rfl (not_isCacheWrite_of_owner hown)]
      exact .nil _
    | ok p =>
      obtain ⟨b, hb, -⟩ := Tree.live_of_owner h.tree hown
      have hloaded := he i.path i.name p i.name t fs h ⟨b, hb⟩
      refine hloaded.append (.append (edited_dissolve hl h hown rfl) ?_)
      -- The next inclusion is loaded unless this one failed for more than its snapshot.
      rcases settled_cases (pull d loader i t fs).1 with hs | ⟨fault, hf, hw⟩
      · obtain ⟨unsaved', -, hrest, -⟩ := pullAll_of_settled is unsaved rfl hs
        rw [hrest, hs]
        exact ih unsaved' hcarried.sound _
      · rw [pullAll_of_fault rfl hf hw, settled_eq_error_iff.mpr ⟨hf, hw⟩]
        exact .nil _

theorem edited_load (e : Engine) (allowed : Nat) (file : Text) (target : Target)
    (h : t.tree.Sound) (ht : t.Admits top target) (fs : Files) :
    Edited t.tree (loadEdits e allowed file top target t fs)
      (load e allowed file top target t fs).2.1.tree := by
  induction allowed generalizing file top target t fs with
  | zero => exact .nil _
  | succ allowed ih =>
    have hprep := prepares (e := e) h fs file top target.replaced
    have hsound : ∀ p u, t.prepare e fs file top target.replaced = (.ok p, u) →
        (u.attach e.dialect p.fragment target).2.tree.Sound := fun p u => sound_prepared h ht
    -- Only calls were added so far.
    have hcalls : Edited t.tree [.intern (t.callsOf e fs file top target.replaced)]
        (t.prepare e fs file top target.replaced).2.tree := by
      rw [hprep.tree, table_prepare]
      exact .cons trivial (.nil _)
    rw [loadEdits, load_succ]
    generalize t.prepare e fs file top target.replaced = r at hprep hsound hcalls
    obtain ⟨r, u⟩ := r
    cases r with
    | error fault => exact hcalls
    | ok p =>
      dsimp only
      rw [template_finishLoad]
      exact hcalls.append ((edited_attach e.dialect hprep.carried.sound (hprep.carried.admits ht)
        (hprep.ready p rfl) (hprep.named_after rfl)).append (edited_pullAll (includes_load e allowed)
          (fun file top p placeholder t fs hs hp => ih file (.under p placeholder) hs hp fs)
          p.inclusions none (hsound p u rfl) fs))

def emptied (t : Template) : Template := { t with tree := .empty, state := {}, nextInclusion := 0 }

theorem tree_loadFile (t : Template) (file : Text) (fs : Files) :
    (t.loadFile e file fs).2.1.tree =
      match settled (loadTop e file rootName (.over rootId false) t.emptied fs).1 with
      | .error _ => t.tree
      | .ok () => (loadTop e file rootName (.over rootId false) t.emptied fs).2.1.tree := by
  rw [loadFile, emptied]
  generalize loadTop e file rootName (.over rootId false) _ fs = r
  obtain ⟨r, u, fs⟩ := r
  cases r with
  | ok x => rfl
  | error fault =>
    cases hw : fault.isCacheWrite with
    | true => simp [settled, hw, renew]
    | false => simp [settled, hw]

structure Unedited (t u : Template) : Prop where
  tree : u.tree = t.tree
  nextInclusion : u.nextInclusion = t.nextInclusion

theorem Unedited.trans {v : Template} (h₁ : Unedited t u) (h₂ : Unedited u v) : Unedited t v :=
  ⟨h₂.tree.trans h₁.tree, h₂.nextInclusion.trans h₁.nextInclusion⟩

theorem unedited_onBlock (name : Text) {g : BlockId → Template} (hg : ∀ id, Unedited t (g id)) :
    Unedited t (t.onBlock name g).2 := by
  rw [onBlock]
  split
  · exact hg _
  · exact ⟨rfl, rfl⟩

theorem unedited_renderAt (id : BlockId) (log : CallLog) :
    Unedited t (t.renderAt e id log).2.1 := by
  rw [renderAt]
  split <;> exact ⟨rfl, rfl⟩

theorem unedited_render (block : Text) (log : CallLog) :
    Unedited t (t.render e block log).2.1 := by
  rw [render]
  split
  · exact ⟨rfl, rfl⟩
  · exact unedited_renderAt _ log

theorem unedited_outputAt (id : BlockId) (log : CallLog) :
    Unedited t (t.outputAt e id log).2.1 := by
  rw [outputAt]
  dsimp only
  split
  · exact unedited_renderAt id log
  · exact ⟨rfl, rfl⟩

theorem unedited_output (block : Text) (log : CallLog) :
    Unedited t (t.output e block log).2.1 := by
  rw [output]
  split
  · exact ⟨rfl, rfl⟩
  · exact unedited_outputAt _ log

theorem unedited_takeOutput (block : Text) (log : CallLog) :
    Unedited t (t.takeOutput e block log).2.1 := by
  rw [takeOutput]
  split
  · exact ⟨rfl, rfl⟩
  · rename_i id _
    have ho := unedited_outputAt (e := e) (t := t) id log
    exact ⟨ho.tree, ho.nextInclusion⟩

theorem unedited_writeOutput (block : Text) (sink : Sink) (log : CallLog) :
    Unedited t (t.writeOutput e block sink log).2.1 := by
  have ho := unedited_output (e := e) (t := t) block log
  rw [writeOutput]
  split
  · rename_i hr
    rwa [hr] at ho
  · rename_i hr
    rw [hr] at ho
    split <;> exact ho

theorem unedited_renderWith (block : Text) (v : Value) (log : CallLog) :
    Unedited t (t.renderWith e block v log).2.1 := by
  have hset : Unedited t (t.setVariables v).2 := ⟨rfl, rfl⟩
  rw [renderWith]
  split
  · rename_i hr
    rwa [hr] at hset
  · rename_i u hr
    rw [hr] at hset
    have hrender := unedited_render (e := e) (t := u) block log
    split
    · rename_i hr
      rw [hr] at hrender
      exact hset.trans hrender
    · rename_i hr
      rw [hr] at hrender
      exact (hset.trans hrender).trans (unedited_takeOutput block _)

end Template

open Template

/-- Whether an operation brings source or a file. -/
def Operation.bringsBlocks : Operation → Bool
  | .compile _ | .setTemplate _ | .loadFile _ | .addBlock _ _ _ | .addBlockFile _ _ _
  | .replaceBlock _ _ _ | .replaceBlockFile _ _ _ => true
  | _ => false

theorem Session.unedited_apply (e : Engine) (s : Session) {op : Operation}
    (h : op.bringsBlocks = false) : Unedited s.template (s.apply e op).template := by
  cases op with
  | setCurrentBlock block => exact unedited_onBlock block fun _ => ⟨rfl, rfl⟩
  | touchBlock block => exact unedited_onBlock block fun _ => ⟨rfl, rfl⟩
  | hideBlock block => exact unedited_onBlock block fun _ => ⟨rfl, rfl⟩
  | render block => exact unedited_render block s.log
  | renderCurrent => exact unedited_renderAt s.template.current s.log
  | output block => exact unedited_output block s.log
  | takeOutput block => exact unedited_takeOutput block s.log
  | writeOutput block sink => exact unedited_writeOutput block sink s.log
  | renderWith block v => exact unedited_renderWith block v s.log
  | setLocals | setGlobals | clearVariables | files => exact ⟨rfl, rfl⟩
  | compile | setTemplate | loadFile | addBlock | addBlockFile | replaceBlock | replaceBlockFile =>
    cases h

def Operation.course (e : Engine) (s : Session) (past : List TreeEdit) :
    Operation → List TreeEdit
  | .compile source | .setTemplate source => (newEdits e source).getD past
  | .loadFile file =>
    let t := s.template.emptied
    match settled (loadTop e file rootName (.over rootId false) t s.files).1 with
    | .error _ => past
    | .ok () => loadEdits e (e.maxDepth + 1) file rootName (.over rootId false) t s.files
  | .addBlock placeholder block source =>
    match s.template.placeFor placeholder block with
    | .error _ => past
    | .ok p => past ++ sourceEdits e s.template block source (.under p placeholder)
  | .addBlockFile placeholder block file =>
    match s.template.placeFor placeholder block with
    | .error _ => past
    | .ok p =>
      past ++ loadEdits e (e.maxDepth + 1) file block (.under p placeholder) s.template s.files
  | .replaceBlock block source keepOutput =>
    match s.template.tree.lookup block with
    | .error _ => past
    | .ok id => past ++ sourceEdits e s.template block source (.over id keepOutput)
  | .replaceBlockFile block file keepOutput =>
    match s.template.tree.lookup block with
    | .error _ => past
    | .ok id =>
      past ++ loadEdits e (e.maxDepth + 1) file block (.over id keepOutput) s.template s.files
  | _ => past

/-- The edits that have made the tree after operations, if `past` have made it until then. -/
def Session.course (e : Engine) : Session → (past : List TreeEdit) → List Operation → List TreeEdit
  | _, past, [] => past
  | s, past, op :: ops => course e (s.apply e op) (op.course e s past) ops

namespace Session

variable {e : Engine} {s : Session} {past : List TreeEdit}

theorem edited_setTemplate (h : Edited .empty past s.template.tree) (source : Text) :
    Edited .empty ((newEdits e source).getD past) (s.template.setTemplate e source).2.tree := by
  cases hnew : newEdits e source with
  | none =>
    rw [(setTemplate_of_newEdits hnew).1]
    exact h
  | some new => exact (edited_newEdits hnew).2

theorem edited_compile (h : Edited .empty past s.template.tree) (source : Text) :
    Edited .empty ((newEdits e source).getD past) (s.apply e (.compile source)).template.tree := by
  rw [apply, Template.compile, ← Prod.eta (Template.empty.setTemplate e source)]
  cases hnew : newEdits e source with
  | none =>
    obtain ⟨-, fault, hfault⟩ := setTemplate_of_newEdits (t := .empty) hnew
    rw [hfault]
    exact h
  | some new =>
    obtain ⟨hok, hedited⟩ := edited_newEdits (t := .empty) hnew
    rw [hok]
    exact hedited

theorem edited_loadFile (h : Edited .empty past s.template.tree) (file : Text) :
    Edited .empty (Operation.course e s past (.loadFile file))
      (s.template.loadFile e file s.files).2.1.tree := by
  have hroot : s.template.emptied.Admits rootName (.over rootId false) :=
    ⟨{ name := rootName, content := [] }, rfl, rfl⟩
  have hedited := edited_load e (e.maxDepth + 1) file (.over rootId false)
    (t := s.template.emptied) Tree.sound_empty hroot s.files
  rw [tree_loadFile, Operation.course]
  cases settled (loadTop e file rootName (.over rootId false) s.template.emptied s.files).1 with
  | error fault => exact h
  | ok x => exact hedited

theorem edited_apply (hs : s.template.Sound) (h : Edited .empty past s.template.tree)
    (op : Operation) : Edited .empty (op.course e s past) (s.apply e op).template.tree := by
  have hsame : op.bringsBlocks = false →
      Edited .empty past (s.apply e op).template.tree := fun hop =>
    (unedited_apply e s hop).tree ▸ h
  -- Most operations leave the blocks alone; the others append the edits of what they attach.
  cases op with
  | compile source => exact edited_compile h source
  | setTemplate source => exact edited_setTemplate h source
  | loadFile file => exact edited_loadFile h file
  | addBlock placeholder block source =>
    rw [apply, Operation.course, addBlock]
    cases hp : s.template.placeFor placeholder block with
    | error fault => exact h
    | ok p =>
      have ht : s.template.Admits block (.under p placeholder) := live_of_placeFor hs.tree hp
      exact h.append (edited_attachSource hs.tree ht source)
  | addBlockFile placeholder block file =>
    rw [apply, Operation.course, addBlockFile]
    cases hp : s.template.placeFor placeholder block with
    | error fault => exact h
    | ok p =>
      exact h.append (edited_load e _ file (.under p placeholder) hs.tree
        (live_of_placeFor hs.tree hp) s.files)
  | replaceBlock block source keepOutput =>
    rw [apply, Operation.course, replaceBlock]
    cases hid : s.template.tree.lookup block with
    | error fault => exact h
    | ok id =>
      have ht : s.template.Admits block (.over id keepOutput) := get?_of_lookup hid
      exact h.append (edited_attachSource hs.tree ht source)
  | replaceBlockFile block file keepOutput =>
    rw [apply, Operation.course, replaceBlockFile]
    cases hid : s.template.tree.lookup block with
    | error fault => exact h
    | ok id =>
      exact h.append (edited_load e _ file (.over id keepOutput) hs.tree (get?_of_lookup hid)
        s.files)
  | _ => exact hsame rfl

/-- At any time the tree is what its course of edits has made of an empty tree. -/
theorem edited_run (hs : s.template.Sound) (h : Edited .empty past s.template.tree)
    (ops : List Operation) : Edited .empty (s.course e past ops) (s.run e ops).template.tree := by
  induction ops generalizing s past with
  | nil => exact h
  | cons op ops ih => exact ih (sound_apply e hs op) (edited_apply hs h op)

end Session

end BlockTemplate
