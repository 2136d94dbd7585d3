import BlockTemplate.Proofs.Files.Change
import BlockTemplate.Proofs.Template.Session

/-!
# What loads do to files

A load opens a file, then the files of its inclusions one after another, and at last tries to save
the snapshot of what it compiled. The files change by these saves only, each at the place of its
snapshot, so a relation between files that every save keeps holds between the files before and
after a load.
-/

namespace BlockTemplate

inductive FileStep where
  /-- its text is compiled, or its snapshot restored, from the files as they are then -/
  | opens (file : Text) (fs : Files)
  /-- its snapshot is saved, or cannot be -/
  | saves (file : Text) (done : Bool)
  deriving DecidableEq

def FileStep.opened? : FileStep → Option Text
  | .opens file _ => some file
  | .saves .. => none

def FileStep.opened (l : List FileStep) : List Text := l.filterMap opened?

theorem FileStep.mem_opened {l : List FileStep} {file : Text} {fs : Files}
    (h : .opens file fs ∈ l) : file ∈ opened l := List.mem_filterMap.mpr ⟨_, h, rfl⟩

@[simp] theorem FileStep.opened_nil : opened [] = [] := rfl

@[simp] theorem FileStep.opened_opens (file : Text) (fs : Files) (l : List FileStep) :
    opened (.opens file fs :: l) = file :: opened l := rfl

theorem FileStep.opened_append (l l' : List FileStep) :
    opened (l ++ l') = opened l ++ opened l' := List.filterMap_append

def Engine.Exports (e : Engine) (text : Text) (s : Snapshot) : Prop :=
  ∃ (t u : Template) (top : Text) (target : Target) (p : Prepared),
    t.tree.Sound ∧ t.Admits top target ∧ t.prepareText e top target.replaced text = (.ok p, u) ∧
    s = Snapshot.take (u.attach e.dialect p.fragment target).2.tree
      (u.attach e.dialect p.fragment target).1 p.inclusions e.options.trimOnSave

namespace Template

def snapshot? (e : Engine) (p : Prepared) (id : BlockId) (t : Template) : Option Snapshot :=
  if p.fromSource && e.cacheDir.isSome then
    some (Snapshot.take t.tree id p.inclusions e.options.trimOnSave)
  else none

def pullSteps (d : Dialect) (load : Text → Text → Target → Template → Files → Loaded)
    (steps : Text → Text → Target → Template → Files → List FileStep) :
    List Inclusion → Template → Files → List FileStep
  | [], _, _ => []
  | i :: rest, t, fs =>
    match t.tree.owner i.name with
    | .error _ => []
    | .ok parent =>
      steps i.path i.name (.under parent i.name) t fs ++
        match pull d load i t fs with
        | (.ok (), t, fs) => pullSteps d load steps rest t fs
        | (.error fault, t, fs) =>
          if fault.isCacheWrite then pullSteps d load steps rest t fs else []

def saveSteps (e : Engine) (file : Text) : Option Snapshot → Loaded → List FileStep
  | none, _ => []
  | some s, (.ok (), _, fs) => [.saves file (saveSnapshot e file s fs).1.toBool]
  | some s, (.error fault, _, fs) =>
    if fault.isCacheWrite then [.saves file (saveSnapshot e file s fs).1.toBool] else []

def loadSteps (e : Engine) :
    (allowed : Nat) → (file top : Text) → Target → Template → Files → List FileStep
  | 0, _, _, _, _, _ => []
  | allowed + 1, file, top, target, t, fs =>
    .opens file fs ::
      match t.prepare e fs file top target.replaced with
      | (.error _, _) => []
      | (.ok p, t) =>
        let (id, t) := t.attach e.dialect p.fragment target
        pullSteps e.dialect (load e allowed) (loadSteps e allowed) p.inclusions t fs ++
          saveSteps e file (snapshot? e p id t)
            (pullAll e.dialect (load e allowed) p.inclusions none t fs)

variable {e : Engine} {t u : Template} {fs : Files} {file top : Text}

theorem load_succ (e : Engine) (allowed : Nat) (file top : Text) (target : Target) (t : Template)
    (fs : Files) : load e (allowed + 1) file top target t fs =
      match t.prepare e fs file top target.replaced with
      | (.error fault, t) => (.error fault, t, fs)
      | (.ok p, t) =>
        finishLoad e file
          (snapshot? e p (t.attach e.dialect p.fragment target).1
            (t.attach e.dialect p.fragment target).2)
          (pullAll e.dialect (load e allowed) p.inclusions none
            (t.attach e.dialect p.fragment target).2 fs) := rfl

theorem text_of_prepareFile {replaced : Option BlockId} {p : Prepared}
    (hp : t.prepareFile e fs file top replaced = (.ok p, u)) :
    ∃ text, fs.read (e.path file) = .ok text ∧ t.prepareText e top replaced text = (.ok p, u) := by
  rw [prepareFile] at hp
  cases hread : fs.read (e.path file) with
  | error why =>
    rw [hread] at hp
    cases hp
  | ok text =>
    rw [hread] at hp
    exact ⟨text, rfl, hp⟩

theorem text_of_fromSource (h : t.tree.Sound) {target : Target} (ht : t.Admits top target)
    {p : Prepared} (hp : t.prepare e fs file top target.replaced = (.ok p, u))
    (hsource : p.fromSource = true) :
    ∃ (v : Template) (text : Text), v.tree.Sound ∧ v.Admits top target ∧
      fs.read (e.path file) = .ok text ∧
      v.prepareText e top target.replaced text = (.ok p, u) := by
  rw [prepare] at hp
  split at hp
  · obtain ⟨text, hread, htext⟩ := text_of_prepareFile hp
    exact ⟨t, text, h, ht, hread, htext⟩
  · rename_i s _
    obtain ⟨hc, -⟩ := carried_restore (e := e) h top s
    split at hp
    · rename_i v hr
      rw [hr] at hc
      obtain ⟨text, hread, htext⟩ := text_of_prepareFile hp
      exact ⟨v, text, hc.sound, hc.admits ht, hread, htext⟩
    · split at hp
      · cases hp
      · cases hp
        cases hsource

theorem exports_of_snapshot? (h : t.tree.Sound) {target : Target} (ht : t.Admits top target)
    {p : Prepared} (hp : t.prepare e fs file top target.replaced = (.ok p, u)) {s : Snapshot}
    (hs : snapshot? e p (u.attach e.dialect p.fragment target).1
      (u.attach e.dialect p.fragment target).2 = some s) :
    e.cacheDir.isSome ∧ ∃ text, fs.read (e.path file) = .ok text ∧ e.Exports text s := by
  rw [snapshot?] at hs
  split at hs
  · rename_i hsource
    cases hs
    rw [Bool.and_eq_true] at hsource
    obtain ⟨v, text, hv, hadmits, hread, htext⟩ := text_of_fromSource h ht hp hsource.1
    exact ⟨hsource.2, text, hread, v, u, top, target, p, hv, hadmits, htext, rfl⟩
  · cases hs

/--
A relation that the steps of a load set up between the files before and after them, if all files are
opened as allowed. A snapshot is saved of a text that was read before the steps of the inclusions.
-/
structure KeptBySteps (e : Engine) (opening : Text → Files → Prop)
    (R : List FileStep → Files → Files → Prop) : Prop where
  none : ∀ fs, R [] fs fs
  opens : ∀ file fs, R [.opens file fs] fs fs
  append : ∀ l l' fs fs' fs'', R l fs fs' → R l' fs' fs'' → R (l ++ l') fs fs''
  saves : ∀ file text s l fs fs', opening file fs → e.cacheDir.isSome →
    fs.read (e.path file) = .ok text → e.Exports text s → R l fs fs' →
    R [.saves file (saveSnapshot e file s fs').1.toBool] fs' (saveSnapshot e file s fs').2

variable {opening : Text → Files → Prop} {R : List FileStep → Files → Files → Prop}
  {d : Dialect} {loader : Text → Text → Target → Template → Files → Loaded}
  {steps : Text → Text → Target → Template → Files → List FileStep}

theorem files_pull (d : Dialect) (loader : Text → Text → Target → Template → Files → Loaded)
    (i : Inclusion) (t : Template) (fs : Files) :
    (∃ fault, t.tree.owner i.name = .error fault ∧ pull d loader i t fs = (.error fault, t, fs)) ∨
    ∃ p, t.tree.owner i.name = .ok p ∧ (pull d loader i t fs).2.2 =
      (loader i.path i.name (.under p i.name) t fs).2.2 :=
  (pull_cases d loader i t fs).imp_right fun ⟨p, _, hp, hload, hfiles, _⟩ =>
    ⟨p, hp, hload ▸ hfiles⟩

theorem not_isCacheWrite_of_owner {name : Text} {fault : Fault}
    (h : t.tree.owner name = .error fault) : fault.isCacheWrite = false := by
  rw [Tree.owner] at h
  split at h
  · cases h
    rfl
  · cases h
  · cases h
    rfl

theorem files_finishLoad (e : Engine) (file : Text) (s : Option Snapshot) (r : Loaded) :
    (saveSteps e file s r = [] ∧ (finishLoad e file s r).2.2 = r.2.2) ∨
      ∃ s', s = some s' ∧
        saveSteps e file s r = [.saves file (saveSnapshot e file s' r.2.2).1.toBool] ∧
        (finishLoad e file s r).2.2 = (saveSnapshot e file s' r.2.2).2 := by
  obtain ⟨r, t, fs⟩ := r
  cases s with
  | none => cases r <;> simp [finishLoad, saveSteps]
  | some s =>
    cases r with
    | ok x => exact .inr ⟨s, rfl, rfl, rfl⟩
    | error fault =>
      rw [finishLoad, saveSteps]
      cases fault.isCacheWrite with
      | false => exact .inl ⟨rfl, rfl⟩
      | true =>
        refine .inr ⟨s, rfl, rfl, ?_⟩
        simp only [if_true]
        split <;> simp_all

theorem steps_pullAll (hR : KeptBySteps e opening R) (hl : IncludesFiles loader)
    (hload : ∀ file top p placeholder t fs, t.tree.Sound → t.tree.Live p →
      (∀ f fs', .opens f fs' ∈ steps file top (.under p placeholder) t fs → opening f fs') →
      R (steps file top (.under p placeholder) t fs) fs
        (loader file top (.under p placeholder) t fs).2.2)
    (is : List Inclusion) (unsaved : Option Fault) (h : t.tree.Sound) (fs : Files)
    (hopen : ∀ f fs', .opens f fs' ∈ pullSteps d loader steps is t fs → opening f fs') :
    R (pullSteps d loader steps is t fs) fs (pullAll d loader is unsaved t fs).2.2 := by
  induction is generalizing t unsaved fs with
  | nil => cases unsaved <;> exact hR.none fs
  | cons i is ih =>
    have hcarried := carried_pull (d := d) hl h i fs
    rcases files_pull d loader i t fs with
      ⟨fault, hown, hpull⟩ | ⟨p, hown, hfiles⟩
    · rw [pullAll, hpull, pullSteps, hown]
      dsimp only
      rw [if_neg (by simp [not_isCacheWrite_of_owner hown])]
      exact hR.none fs
    · obtain ⟨b, hb, -⟩ := Tree.live_of_owner h.tree hown
      rw [pullSteps, hown] at hopen ⊢
      dsimp only at hopen ⊢
      have hfirst : R (steps i.path i.name (.under p i.name) t fs) fs
          (pull d loader i t fs).2.2 := by
        rw [hfiles]
        exact hload _ _ p _ t fs h ⟨b, hb⟩ fun f fs' hf => hopen f fs' (List.mem_append_left _ hf)
      rw [pullAll]
      generalize pull d loader i t fs = r at hfirst hcarried hopen
      obtain ⟨r, u, fs'⟩ := r
      cases r with
      | ok x =>
        exact hR.append _ _ _ _ _ hfirst
          (ih unsaved hcarried.sound fs' fun f fs' hf => hopen f fs' (List.mem_append_right _ hf))
      | error fault =>
        dsimp only at hopen ⊢
        cases hw : fault.isCacheWrite with
        | false =>
          simp only [Bool.false_eq_true, if_false, List.append_nil]
          exact hfirst
        | true =>
          rw [hw] at hopen
          simp only [if_true] at hopen ⊢
          exact hR.append _ _ _ _ _ hfirst
            (ih _ hcarried.sound fs' fun f fs' hf => hopen f fs' (List.mem_append_right _ hf))

theorem sound_prepared (h : t.tree.Sound) {target : Target} (ht : t.Admits top target)
    {p : Prepared} (hp : t.prepare e fs file top target.replaced = (.ok p, u)) :
    (u.attach e.dialect p.fragment target).2.tree.Sound := by
  have hprep := prepares (e := e) h fs file top target.replaced
  rw [hp] at hprep
  exact tree_attach e.dialect hprep.carried.sound (hprep.carried.admits ht) (hprep.ready p rfl)
    (hprep.named_after rfl)

theorem steps_load (hR : KeptBySteps e opening R) (allowed : Nat) (file top : Text) (target : Target)
    (h : t.tree.Sound) (ht : t.Admits top target) (fs : Files)
    (hopen : ∀ f fs', .opens f fs' ∈ loadSteps e allowed file top target t fs → opening f fs') :
    R (loadSteps e allowed file top target t fs) fs
      (load e allowed file top target t fs).2.2 := by
  induction allowed generalizing file top target t fs with
  | zero => exact hR.none fs
  | succ allowed ih =>
    rw [loadSteps] at hopen ⊢
    rw [load_succ]
    cases hp : t.prepare e fs file top target.replaced with
    | mk r u =>
      rw [hp] at hopen
      cases r with
      | error fault => exact hR.opens file fs
      | ok p =>
        dsimp only at hopen ⊢
        have hpulled := steps_pullAll (d := e.dialect) hR
          (includes_load e allowed)
          (fun file top q ph t fs h hq hn => ih file top (.under q ph) h hq fs hn)
          p.inclusions none (sound_prepared h ht hp) fs fun f fs' hf =>
            hopen f fs' (List.mem_cons_of_mem _ (List.mem_append_left _ hf))
        refine hR.append [.opens file fs] _ _ fs _ (hR.opens file fs) ?_
        generalize pullAll e.dialect (load e allowed) p.inclusions none _ fs = r at hpulled
        rcases files_finishLoad e file _ r with ⟨hsteps, hsame⟩ | ⟨s, hs, hsteps, hsaved⟩
        · rw [hsteps, hsame]
          simpa using hpulled
        · rw [hsteps, hsaved]
          obtain ⟨hdir, text, hread, hexports⟩ := exports_of_snapshot? h ht hp hs
          exact hR.append _ _ _ _ _ hpulled (hR.saves file text s _ fs _
            (hopen file fs List.mem_cons_self) hdir hread hexports hpulled)

end Template

inductive FileEdit where
  | load (file : Text)
  | add (placeholder block file : Text)
  | replace (block file : Text) (keepOutput : Bool)

structure FileJob where
  file : Text
  top : Text
  target : Target
  into : Template

namespace FileEdit

open Template

def job (t : Template) : FileEdit → Except Fault FileJob
  | .load file =>
    .ok ⟨file, rootName, .over rootId false,
      { t with tree := .empty, state := {}, nextInclusion := 0 }⟩
  | .add placeholder block file =>
    (t.placeFor placeholder block).map fun p => ⟨file, block, .under p placeholder, t⟩
  | .replace block file keepOutput =>
    (t.tree.lookup block).map fun id => ⟨file, block, .over id keepOutput, t⟩

def finish (t : Template) (r : Loaded) : FileEdit → Loaded
  | .load _ =>
    match r with
    | (.ok (), loaded, fs) => (.ok (), { loaded with state := t.state, current := rootId }.renew, fs)
    | (.error fault, loaded, fs) =>
      if fault.isCacheWrite then
        (.error fault, { loaded with state := t.state, current := rootId }.renew, fs)
      else (.error fault, t, fs)
  | .add .. | .replace .. => r

def run (e : Engine) (t : Template) (fs : Files) : FileEdit → Loaded
  | .load file => t.loadFile e file fs
  | .add placeholder block file => t.addBlockFile e placeholder block file fs
  | .replace block file keepOutput => t.replaceBlockFile e block file keepOutput fs

def steps (e : Engine) (t : Template) (fs : Files) (edit : FileEdit) : List FileStep :=
  match edit.job t with
  | .error _ => []
  | .ok j => loadSteps e (e.maxDepth + 1) j.file j.top j.target j.into fs

variable {e : Engine} {t : Template} {fs : Files} {edit : FileEdit}

theorem run_eq (e : Engine) (t : Template) (fs : Files) (edit : FileEdit) : edit.run e t fs =
    match edit.job t with
    | .error fault => (.error fault, t, fs)
    | .ok j => edit.finish t (loadTop e j.file j.top j.target j.into fs) := by
  cases edit with
  | load file => rfl
  | add placeholder block file =>
    rw [run, addBlockFile, job]
    cases t.placeFor placeholder block <;> rfl
  | replace block file keepOutput =>
    rw [run, replaceBlockFile, job]
    cases t.tree.lookup block <;> rfl

theorem files_finish (t : Template) (r : Loaded) (edit : FileEdit) :
    (edit.finish t r).2.2 = r.2.2 := by
  cases edit with
  | load file =>
    obtain ⟨r, u, fs⟩ := r
    cases r with
    | ok x => rfl
    | error fault =>
      rw [finish]
      dsimp only
      split <;> rfl
  | add => rfl
  | replace => rfl

theorem admits_job (h : t.tree.Sound) {j : FileJob} (hj : edit.job t = .ok j) :
    j.into.tree.Sound ∧ j.into.Admits j.top j.target := by
  cases edit with
  | load file =>
    cases hj
    exact ⟨Tree.sound_empty, { name := rootName, content := [] }, rfl, rfl⟩
  | add placeholder block file =>
    rw [job] at hj
    cases hp : t.placeFor placeholder block with
    | error fault =>
      rw [hp] at hj
      cases hj
    | ok p =>
      rw [hp] at hj
      cases hj
      exact ⟨h, live_of_placeFor h hp⟩
  | replace block file keepOutput =>
    rw [job] at hj
    cases hid : t.tree.lookup block with
    | error fault =>
      rw [hid] at hj
      cases hj
    | ok id =>
      rw [hid] at hj
      cases hj
      exact ⟨h, get?_of_lookup hid⟩

theorem steps_run {opening : Text → Files → Prop} {R : List FileStep → Files → Files → Prop}
    (hR : KeptBySteps e opening R) (h : t.tree.Sound) (fs : Files) (edit : FileEdit)
    (hopen : ∀ f fs', .opens f fs' ∈ edit.steps e t fs → opening f fs') :
    R (edit.steps e t fs) fs (edit.run e t fs).2.2 := by
  rw [steps] at hopen ⊢
  rw [run_eq]
  cases hj : edit.job t with
  | error fault => exact hR.none fs
  | ok j =>
    rw [hj] at hopen
    obtain ⟨hs, hadmits⟩ := admits_job h hj
    dsimp only at hopen ⊢
    rw [files_finish]
    exact steps_load hR _ j.file j.top j.target hs hadmits fs hopen

end FileEdit

end BlockTemplate
