import BlockTemplate.Proofs.Template.Session

/-!
# Edits that fail

Source that is set, added or put over a block is compiled before anything is attached, and a file
that is made the whole template is loaded aside. So an edit of these kinds that fails changes
nothing, and a new whole template takes nothing from the old one but its global variables.
-/

namespace BlockTemplate

namespace Template

variable {t u : Template} {e : Engine}

/-- The blocks, their names and calls, the state and the current block are the same. -/
structure Unchanged (t u : Template) : Prop where
  blocks : ∀ id, u.tree.get? id = t.tree.get? id
  index : ∀ name, u.tree.find? name = t.tree.find? name
  calls : ∀ id b, t.tree.get? id = some b → ∀ c ∈ b.calls,
    ∃ call, t.tree.calls.get? c = some call ∧ u.tree.calls.get? c = some call
  state : u.state = t.state
  current : u.current = t.current

theorem unchanged_refl (h : t.tree.Sound) : t.Unchanged t where
  blocks := fun _ => rfl
  index := fun _ => rfl
  calls := by
    intro id b hb c hc
    obtain ⟨call, hcall⟩ := h.known id b hb c hc
    exact ⟨call, hcall, hcall⟩
  state := rfl
  current := rfl

theorem unchanged_of_calls (h : t.tree.Sound)
    (htree : u.tree = { t.tree with calls := u.tree.calls })
    (hg : t.tree.calls.Extends u.tree.calls) (hs : u.state = t.state)
    (hc : u.current = t.current) : t.Unchanged u where
  blocks := by
    intro id
    rw [htree]
    rfl
  index := by
    intro name
    rw [htree]
    rfl
  calls := by
    intro id b hb c hm
    obtain ⟨call, hcall⟩ := h.known id b hb c hm
    exact ⟨call, hcall, hg c call hcall⟩
  state := hs
  current := hc

theorem unchanged_attachSource (h : t.tree.Sound) {top source : Text} {target : Target}
    {fault : Fault} (hf : (t.attachSource e top source target).1 = .error fault) :
    t.Unchanged (t.attachSource e top source target).2 := by
  have hfits := Fragment.fits_compile e.dialect t.tree top source target.replaced
  rw [attachSource] at hf ⊢
  generalize Fragment.compile e.dialect t.tree top source target.replaced = r at hfits hf
  obtain ⟨r, calls⟩ := r
  cases r with
  | error why => exact unchanged_of_calls h rfl hfits.grown rfl rfl
  | ok f => cases hf

theorem unchanged_addBlock (h : t.tree.Sound) {placeholder block source : Text} {fault : Fault}
    (hf : (t.addBlock e placeholder block source).1 = .error fault) :
    t.Unchanged (t.addBlock e placeholder block source).2 := by
  rw [addBlock] at hf ⊢
  split at hf
  · exact unchanged_refl h
  · exact unchanged_attachSource h hf

theorem unchanged_replaceBlock (h : t.tree.Sound) {block source : Text} {keepOutput : Bool}
    {fault : Fault} (hf : (t.replaceBlock e block source keepOutput).1 = .error fault) :
    t.Unchanged (t.replaceBlock e block source keepOutput).2 := by
  rw [replaceBlock] at hf ⊢
  split at hf
  · exact unchanged_refl h
  · exact unchanged_attachSource h hf

theorem unchanged_setTemplate (h : t.tree.Sound) {source : Text} {fault : Fault}
    (hf : (t.setTemplate e source).1 = .error fault) : t.Unchanged (t.setTemplate e source).2 := by
  rw [setTemplate] at hf ⊢
  split at hf
  · exact unchanged_refl h
  · cases hf

theorem unchanged_loadFile (h : t.tree.Sound) {file : Text} {fs : Files} {fault : Fault}
    (hf : (t.loadFile e file fs).1 = .error fault) (hw : fault.isCacheWrite = false) :
    t.Unchanged (t.loadFile e file fs).2.1 := by
  rw [loadFile] at hf ⊢
  generalize loadTop e file rootName (.over rootId false) _ fs = r at hf ⊢
  obtain ⟨r, u, fs'⟩ := r
  cases r with
  | ok x => cases hf
  | error why =>
    dsimp only at hf ⊢
    by_cases hs : why.isCacheWrite = true
    · rw [if_pos hs] at hf
      cases hf
      rw [hw] at hs
      cases hs
    · rw [if_neg hs]
      exact unchanged_refl h

def withCurrent (t : Template) (id : BlockId) : Template := { t with current := id }

def withGlobals (t : Template) (globals : Pool) : Template :=
  { t with state := { t.state with globals := globals } }

theorem prepareText_withCurrent (c : BlockId) (top : Text) (replaced : Option BlockId)
    (text : Text) : (t.withCurrent c).prepareText e top replaced text =
      ((t.prepareText e top replaced text).1,
        (t.prepareText e top replaced text).2.withCurrent c) := by
  simp only [prepareText, withCurrent]
  generalize Inclusion.extract e.dialect t.nextInclusion text = x
  obtain ⟨source, inclusions⟩ := x
  dsimp only
  generalize Fragment.compile e.dialect t.tree top source replaced = r
  obtain ⟨r, calls⟩ := r
  cases r <;> rfl

theorem prepareFile_withCurrent (c : BlockId) (fs : Files) (file top : Text)
    (replaced : Option BlockId) : (t.withCurrent c).prepareFile e fs file top replaced =
      ((t.prepareFile e fs file top replaced).1,
        (t.prepareFile e fs file top replaced).2.withCurrent c) := by
  rw [prepareFile, prepareFile]
  cases fs.read (e.path file) with
  | error why => rfl
  | ok text => exact prepareText_withCurrent c top replaced text

theorem prepare_withCurrent (c : BlockId) (fs : Files) (file top : Text)
    (replaced : Option BlockId) : (t.withCurrent c).prepare e fs file top replaced =
      ((t.prepare e fs file top replaced).1,
        (t.prepare e fs file top replaced).2.withCurrent c) := by
  rw [prepare, prepare]
  cases e.savedSnapshot? fs file with
  | none => exact prepareFile_withCurrent c fs file top replaced
  | some s =>
    have hrestore : (t.withCurrent c).restore e top s =
        ((t.restore e top s).1, (t.restore e top s).2.withCurrent c) := rfl
    dsimp only
    rw [hrestore]
    generalize t.restore e top s = r
    obtain ⟨r, u⟩ := r
    cases r with
    | none => exact prepareFile_withCurrent c fs file top replaced
    | some x =>
      dsimp only [withCurrent]
      cases Fragment.checkNames u.tree (Fragment.leavingNames u.tree replaced) [] x.1 <;> rfl

theorem attach_withCurrent (d : Dialect) (c : BlockId) (f : Fragment) (target : Target) :
    ∃ c', (t.withCurrent c).attach d f target =
      ((t.attach d f target).1, (t.attach d f target).2.withCurrent c') := by
  match target with
  | .under parent placeholder => exact ⟨c, rfl⟩
  | .over id keepOutput => exact ⟨_, rfl⟩

def Steady (loader : Text → Text → Target → Template → Files → Loaded) : Prop :=
  ∀ file top target t fs c, ∃ c', loader file top target (t.withCurrent c) fs =
    ((loader file top target t fs).1, (loader file top target t fs).2.1.withCurrent c',
      (loader file top target t fs).2.2)

variable {d : Dialect} {loader : Text → Text → Target → Template → Files → Loaded}

theorem Steady.pull (hl : Steady loader) (i : Inclusion) (t : Template) (fs : Files) (c : BlockId) :
    ∃ c', Template.pull d loader i (t.withCurrent c) fs =
      ((Template.pull d loader i t fs).1, (Template.pull d loader i t fs).2.1.withCurrent c',
        (Template.pull d loader i t fs).2.2) := by
  rw [Template.pull, Template.pull]
  have htree : (t.withCurrent c).tree = t.tree := rfl
  rw [htree]
  cases t.tree.owner i.name with
  | error fault => exact ⟨c, rfl⟩
  | ok parent =>
    obtain ⟨c', hload⟩ := hl i.path i.name (.under parent i.name) t fs c
    dsimp only
    rw [hload]
    generalize loader i.path i.name (.under parent i.name) t fs = r
    obtain ⟨r, u, fs'⟩ := r
    refine ⟨c', ?_⟩
    cases r with
    | ok x =>
      dsimp only [withCurrent]
      cases u.tree.lookup i.name <;> rfl
    | error fault =>
      dsimp only [withCurrent]
      cases fault.isCacheWrite with
      | false => rfl
      | true => cases u.tree.lookup i.name <;> rfl

theorem Steady.pullAll (hl : Steady loader) (is : List Inclusion) (unsaved : Option Fault)
    (t : Template) (fs : Files) (c : BlockId) :
    ∃ c', Template.pullAll d loader is unsaved (t.withCurrent c) fs =
      ((Template.pullAll d loader is unsaved t fs).1,
        (Template.pullAll d loader is unsaved t fs).2.1.withCurrent c',
        (Template.pullAll d loader is unsaved t fs).2.2) := by
  induction is generalizing unsaved t fs c with
  | nil => cases unsaved <;> exact ⟨c, rfl⟩
  | cons i is ih =>
    obtain ⟨c', hpull⟩ := hl.pull (d := d) i t fs c
    rw [Template.pullAll, Template.pullAll, hpull]
    generalize Template.pull d loader i t fs = r
    obtain ⟨r, u, fs'⟩ := r
    cases r with
    | ok x => exact ih unsaved u fs' c'
    | error fault =>
      dsimp only
      cases fault.isCacheWrite with
      | false => exact ⟨c', rfl⟩
      | true => exact ih (unsaved.or (some fault)) u fs' c'

theorem finishLoad_withCurrent (c : BlockId) (file : Text) (s : Option Snapshot) (r : Loaded) :
    finishLoad e file s (r.1, r.2.1.withCurrent c, r.2.2) =
      ((finishLoad e file s r).1, (finishLoad e file s r).2.1.withCurrent c,
        (finishLoad e file s r).2.2) := by
  obtain ⟨r, t, fs⟩ := r
  cases r <;> simp only [finishLoad] <;> repeat' split
  all_goals rfl

theorem steady_load (e : Engine) (allowed : Nat) : Steady (load e allowed) := by
  induction allowed with
  | zero => exact fun file top target t fs c => ⟨c, rfl⟩
  | succ allowed ih =>
    intro file top target t fs c
    rw [load, load, prepare_withCurrent]
    generalize t.prepare e fs file top target.replaced = r
    obtain ⟨r, u⟩ := r
    cases r with
    | error fault => exact ⟨c, rfl⟩
    | ok p =>
      obtain ⟨c', hattach⟩ := attach_withCurrent (t := u) e.dialect c p.fragment target
      dsimp only
      rw [hattach]
      generalize u.attach e.dialect p.fragment target = a
      obtain ⟨id, v⟩ := a
      obtain ⟨c'', hpull⟩ := ih.pullAll (d := e.dialect) p.inclusions none v fs c'
      refine ⟨c'', ?_⟩
      dsimp only
      rw [hpull]
      exact finishLoad_withCurrent c'' file _ _

def Usable (r : Except Fault Unit) : Prop :=
  r = .ok () ∨ ∃ fault, r = .error fault ∧ fault.isCacheWrite = true

theorem loadFile_afresh (file : Text) (fs : Files) (h : Usable (t.loadFile e file fs).1) :
    t.loadFile e file fs = ((empty.loadFile e file fs).1,
      (empty.loadFile e file fs).2.1.withGlobals t.state.globals,
      (empty.loadFile e file fs).2.2) := by
  obtain ⟨c, hload⟩ := steady_load e (e.maxDepth + 1) file rootName (.over rootId false) empty fs
    t.current
  have hblank : loadTop e file rootName (.over rootId false)
      ({ t with tree := .empty, state := {}, nextInclusion := 0 } : Template) fs = _ := hload
  have hempty : loadTop e file rootName (.over rootId false)
      ({ empty with tree := .empty, state := {}, nextInclusion := 0 } : Template) fs =
        load e (e.maxDepth + 1) file rootName (.over rootId false) empty fs := rfl
  rw [loadFile, hblank] at h ⊢
  rw [loadFile, hempty]
  generalize load e (e.maxDepth + 1) file rootName (.over rootId false) empty fs = r at h ⊢
  obtain ⟨r, u, fs'⟩ := r
  cases r with
  | ok x => rfl
  | error fault =>
    dsimp only at h ⊢
    cases hs : fault.isCacheWrite with
    | true => rfl
    | false =>
      rw [hs] at h
      obtain h | ⟨fault', h, hs'⟩ := h
      · cases h
      · cases h
        rw [hs] at hs'
        cases hs'

theorem setTemplate_afresh (source : Text) (h : (t.setTemplate e source).1 = .ok ()) :
    t.setTemplate e source = ((empty.setTemplate e source).1,
      (empty.setTemplate e source).2.withGlobals t.state.globals) := by
  rw [setTemplate] at h ⊢
  rw [setTemplate]
  generalize Fragment.compile e.dialect .empty rootName source (some rootId) = r at h ⊢
  obtain ⟨r, calls⟩ := r
  cases r with
  | error fault => cases h
  | ok f => rfl

/-- What is promised of source that is set, added or put over a block, and of a loaded file. -/
structure AllOrNothing (e : Engine) (t : Template) : Prop where
  setTemplate_fault : ∀ source fault, (t.setTemplate e source).1 = .error fault →
    t.Unchanged (t.setTemplate e source).2
  loadFile_fault : ∀ file fs fault, (t.loadFile e file fs).1 = .error fault →
    fault.isCacheWrite = false → t.Unchanged (t.loadFile e file fs).2.1
  addBlock_fault : ∀ placeholder block source fault,
    (t.addBlock e placeholder block source).1 = .error fault →
    t.Unchanged (t.addBlock e placeholder block source).2
  replaceBlock_fault : ∀ block source keepOutput fault,
    (t.replaceBlock e block source keepOutput).1 = .error fault →
    t.Unchanged (t.replaceBlock e block source keepOutput).2
  setTemplate_ok : ∀ source, (t.setTemplate e source).1 = .ok () →
    (empty.setTemplate e source).1 = .ok () ∧
    (t.setTemplate e source).2 = (empty.setTemplate e source).2.withGlobals t.state.globals
  loadFile_usable : ∀ file fs, Usable (t.loadFile e file fs).1 →
    (empty.loadFile e file fs).1 = (t.loadFile e file fs).1 ∧
    (empty.loadFile e file fs).2.2 = (t.loadFile e file fs).2.2 ∧
    (t.loadFile e file fs).2.1 = (empty.loadFile e file fs).2.1.withGlobals t.state.globals

end Template

namespace Session

open Template

/-- Edits by source and of the whole template are all or nothing, whatever was done before. -/
theorem edits_atomic (e : Engine) (fs : Files) (ops : List Operation) :
    ((start fs).run e ops).template.AllOrNothing e := by
  have h := (sound_run e Template.sound_empty (s := start fs) ops).tree
  exact {
    setTemplate_fault := fun _ _ hf => unchanged_setTemplate h hf
    loadFile_fault := fun _ _ _ hf hw => unchanged_loadFile h hf hw
    addBlock_fault := fun _ _ _ _ hf => unchanged_addBlock h hf
    replaceBlock_fault := fun _ _ _ _ hf => unchanged_replaceBlock h hf
    setTemplate_ok := by
      intro source hok
      have hset := setTemplate_afresh source hok
      rw [hset] at hok
      exact ⟨hok, congrArg Prod.snd hset⟩
    loadFile_usable := by
      intro file fs hu
      have hload := loadFile_afresh file fs hu
      exact ⟨(congrArg Prod.fst hload).symm, (congrArg (·.2.2) hload).symm,
        congrArg (·.2.1) hload⟩ }

def brokenFiles : Files :=
  (Files.empty.write "part.html".toList (Text.utf8 "<!-- INCLUDE none.html -->".toList)
    ⟨1, 0⟩).write "page.html".toList (Text.utf8 "a<!-- INCLUDE part.html -->".toList) ⟨1, 0⟩

def busySteps : List Operation :=
  [.compile ("{slot}<!-- BEGIN a -->{x}" ++
      "<!-- BEGIN b -->func_u('{x}')<!-- END b --><!-- END a -->").toList,
    .setLocals (some ['x']) (.text ['1']), .render ['a'], .setGlobals (some ['g']) (.text ['2']),
    .setLocals (some ['x']) (.text ['3']), .touchBlock ['b'], .setCurrentBlock ['b']]

def faultySource : Text := "func_h('new')func_h(".toList

theorem edits_atomic_busy :
    let t := ((start brokenFiles).run .standard busySteps).template
    ((t.addBlock .standard "slot".toList ['c'] faultySource).1.toBool = false ∧
      (t.addBlock .standard "slot".toList ['c'] faultySource).2.tree.calls ≠ t.tree.calls ∧
      t.Unchanged (t.addBlock .standard "slot".toList ['c'] faultySource).2) ∧
    ((t.loadFile .standard "page.html".toList brokenFiles).1 =
        .error (.unreadable "none.html".toList .notFound) ∧
      t.Unchanged (t.loadFile .standard "page.html".toList brokenFiles).2.1) ∧
    ((t.setTemplate .standard ['s']).1 = .ok () ∧
      (t.setTemplate .standard ['s']).2 =
        (empty.setTemplate .standard ['s']).2.withGlobals (Dict.ofList [(['g'], ['2'])])) := by
  have h := edits_atomic .standard brokenFiles busySteps
  have hadd : (((start brokenFiles).run .standard busySteps).template.addBlock .standard
      "slot".toList ['c'] faultySource).1.toBool = false := by decide +kernel
  have hload : (((start brokenFiles).run .standard busySteps).template.loadFile .standard
      "page.html".toList brokenFiles).1 = .error (.unreadable "none.html".toList .notFound) := by
    decide +kernel
  have hset : (((start brokenFiles).run .standard busySteps).template.setTemplate .standard
      ['s']).1 = .ok () := by decide +kernel
  have hglobals : ((start brokenFiles).run .standard busySteps).template.state.globals =
      Dict.ofList [(['g'], ['2'])] := by decide +kernel
  refine ⟨⟨hadd, by decide +kernel, ?_⟩, ⟨hload, h.loadFile_fault _ _ _ hload rfl⟩, hset, ?_⟩
  · cases hr : (((start brokenFiles).run .standard busySteps).template.addBlock .standard
        "slot".toList ['c'] faultySource).1 with
    | ok x =>
      rw [hr] at hadd
      cases hadd
    | error fault => exact h.addBlock_fault _ _ _ _ hr
  · exact hglobals ▸ (h.setTemplate_ok _ hset).2

end Session

end BlockTemplate
