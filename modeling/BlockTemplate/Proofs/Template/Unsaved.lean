import BlockTemplate.Proofs.Files.Kept
import BlockTemplate.Proofs.Template.Steps

/-!
# Snapshots that cannot be saved

A load goes on when a snapshot cannot be saved, and reports it if all else went well. Two loads into
one template of files that differ only where snapshots of earlier files are kept do the same to the
template, whatever becomes of the saves: the invariant of the pair is that the templates are equal,
the results equal apart from saving, and the files different only where snapshots of the files
loaded so far are kept.
-/

namespace BlockTemplate

/-- Results that are the same, but for the reason why a path through one of the places is lost. -/
inductive Agrees {α : Type} (places : Place → Prop) : Except Fault α → Except Fault α → Prop
  | same (r : Except Fault α) : Agrees places r r
  | lost {path : Text} {why why' : ReadFailure} (hq : ∃ q ∈ Path.passes path, places q)
      (hwhy : why = .notFound ∨ why = .notDirectory)
      (hwhy' : why' = .notFound ∨ why' = .notDirectory) :
      Agrees places (.error (.unreadable path why)) (.error (.unreadable path why'))

theorem Agrees.ok_iff {α : Type} {places : Place → Prop} {r r' : Except Fault α}
    (h : Agrees places r r') {a : α} : r = .ok a ↔ r' = .ok a := by
  cases h with
  | same => exact Iff.rfl
  | lost => simp

namespace Template

def settled : Except Fault Unit → Except Fault Unit
  | .ok () => .ok ()
  | .error fault => if fault.isCacheWrite then .ok () else .error fault

def Unsaved (r : Except Fault Unit) : Prop := ∃ path, r = .error (.cacheWrite path)

variable {e : Engine} {t u : Template} {fs fs' : Files} {file top : Text} {d : Dialect}
  {loader : Text → Text → Target → Template → Files → Loaded}
  {steps : Text → Text → Target → Template → Files → List FileStep} {i : Inclusion}
  {is : List Inclusion} {p : BlockId} {unsaved : Option Fault} {r : Except Fault Unit}

theorem settled_eq_error_iff {fault : Fault} :
    settled r = .error fault ↔ r = .error fault ∧ fault.isCacheWrite = false := by
  cases r with
  | ok x => simp [settled]
  | error fault' =>
    rw [settled]
    cases h : fault'.isCacheWrite with
    | false =>
      rw [if_neg Bool.false_ne_true, Except.error.injEq]
      exact ⟨fun he => ⟨he, he ▸ h⟩, fun he => he.1⟩
    | true =>
      rw [if_pos rfl, Except.error.injEq]
      refine ⟨nofun, fun he => ?_⟩
      rw [he.1, he.2] at h
      cases h

theorem isCacheWrite_of_settled {fault : Fault} (h : settled (.error fault) = .ok ()) :
    fault.isCacheWrite = true := by
  cases hw : fault.isCacheWrite with
  | true => rfl
  | false => simp [settled, hw] at h

theorem unsaved_iff : Unsaved r ↔ settled r = .ok () ∧ r ≠ .ok () := by
  cases r with
  | ok x => simp [Unsaved, settled]
  | error fault => cases fault <;> simp [Unsaved, settled, Fault.isCacheWrite]

theorem settled_cases (r : Except Fault Unit) :
    settled r = .ok () ∨ ∃ fault, r = .error fault ∧ fault.isCacheWrite = false := by
  cases hs : settled r with
  | ok x => exact .inl rfl
  | error fault => exact .inr ⟨fault, settled_eq_error_iff.mp hs⟩

theorem pull_of_settled (hown : t.tree.owner i.name = .ok p) {r : Loaded}
    (hload : loader i.path i.name (.under p i.name) t fs = r) (hs : settled r.1 = .ok ()) :
    pull d loader i t fs =
      match r.2.1.tree.lookup i.name with
      | .error fault => (.error fault, r.2.1, r.2.2)
      | .ok id =>
        (r.1, { r.2.1 with tree := r.2.1.tree.dissolve id (d.token (childName i.name)) }, r.2.2) := by
  rw [pull, hown]
  dsimp only
  rw [hload]
  obtain ⟨r, u, fs⟩ := r
  cases r with
  | ok x => rfl
  | error fault =>
    exact if_pos (isCacheWrite_of_settled hs)

theorem pull_of_fault (hown : t.tree.owner i.name = .ok p) {r : Loaded}
    (hload : loader i.path i.name (.under p i.name) t fs = r) {fault : Fault}
    (hf : r.1 = .error fault) (hw : fault.isCacheWrite = false) : pull d loader i t fs = r := by
  rw [pull, hown]
  dsimp only
  rw [hload]
  obtain ⟨r, u, fs⟩ := r
  cases hf
  dsimp only
  rw [hw]
  rfl

theorem pullAll_of_settled (is : List Inclusion) (unsaved : Option Fault) {r : Loaded}
    (hpull : pull d loader i t fs = r) (hs : settled r.1 = .ok ()) :
    ∃ unsaved', (unsaved'.isSome ↔ unsaved.isSome ∨ Unsaved r.1) ∧
      pullAll d loader (i :: is) unsaved t fs = pullAll d loader is unsaved' r.2.1 r.2.2 ∧
      ((∀ fault ∈ unsaved, fault.isCacheWrite = true) →
        ∀ fault ∈ unsaved', fault.isCacheWrite = true) := by
  obtain ⟨r, u, fs'⟩ := r
  rw [pullAll, hpull]
  cases r with
  | ok x => exact ⟨unsaved, by simp [Unsaved], rfl, id⟩
  | error fault =>
    have hw := isCacheWrite_of_settled hs
    refine ⟨unsaved.or (some fault), ?_, ?_, ?_⟩
    · have : Unsaved (.error fault) := unsaved_iff.mpr ⟨hs, by simp⟩
      simp [this]
    · dsimp only
      rw [if_pos hw]
    · intro h
      cases unsaved with
      | none => simpa using hw
      | some fault' => simpa using h

theorem pullAll_of_fault {r : Loaded} (hpull : pull d loader i t fs = r) {fault : Fault}
    (hf : r.1 = .error fault) (hw : fault.isCacheWrite = false) :
    pullAll d loader (i :: is) unsaved t fs = r := by
  rw [pullAll, hpull]
  obtain ⟨r, u, fs'⟩ := r
  cases hf
  dsimp only
  rw [hw]
  rfl

theorem pullSteps_of_settled (hown : t.tree.owner i.name = .ok p) {r : Loaded}
    (hpull : pull d loader i t fs = r) (hs : settled r.1 = .ok ()) :
    pullSteps d loader steps (i :: is) t fs =
      steps i.path i.name (.under p i.name) t fs ++ pullSteps d loader steps is r.2.1 r.2.2 := by
  rw [pullSteps, hown]
  dsimp only
  rw [hpull]
  obtain ⟨r, u, fs'⟩ := r
  cases r with
  | ok x => rfl
  | error fault =>
    dsimp only
    rw [if_pos (isCacheWrite_of_settled hs)]

theorem pullSteps_of_fault (hown : t.tree.owner i.name = .ok p) {r : Loaded}
    (hpull : pull d loader i t fs = r) {fault : Fault} (hf : r.1 = .error fault)
    (hw : fault.isCacheWrite = false) :
    pullSteps d loader steps (i :: is) t fs = steps i.path i.name (.under p i.name) t fs := by
  rw [pullSteps, hown]
  dsimp only
  rw [hpull]
  obtain ⟨r, u, fs'⟩ := r
  cases hf
  dsimp only
  rw [hw]
  exact List.append_nil _

theorem saveSnapshot_fault {s : Snapshot} {fault : Fault}
    (h : (saveSnapshot e file s fs).1 = .error fault) : fault.isCacheWrite = true := by
  rw [saveSnapshot] at h
  split at h
  · cases h
  · dsimp only at h
    split at h
    · cases h
    · cases h
      rfl

theorem settled_finishLoad (e : Engine) (file : Text) (s : Option Snapshot) (r : Loaded) :
    settled (finishLoad e file s r).1 = settled r.1 := by
  obtain ⟨r, t, fs⟩ := r
  cases s with
  | none => cases r <;> simp [finishLoad]
  | some s =>
    have hfault : ∀ fault, (saveSnapshot e file s fs).1 = .error fault → fault.isCacheWrite = true :=
      fun _ h => saveSnapshot_fault h
    rw [finishLoad.eq_def]
    cases r with
    | ok x =>
      dsimp only
      cases hsave : (saveSnapshot e file s fs).1 with
      | ok x => rfl
      | error fault => simp [settled, hfault fault hsave]
    | error fault =>
      dsimp only
      split
      · rename_i hw
        split
        · rfl
        · rename_i hsave
          rw [hsave] at hfault
          simp [settled, hw, hfault]
      · rfl

structure Together (e : Engine) (names done : List Text) (r r' : Loaded) : Prop where
  result : Agrees (e.Keeps names) (settled r.1) (settled r'.1)
  template : r'.2.1 = r.2.1
  files : Files.DifferAt (e.Keeps done) r.2.2 r'.2.2

def LoadsTogether (e : Engine) (names : List Text)
    (loader : Text → Text → Target → Template → Files → Loaded)
    (steps : Text → Text → Target → Template → Files → List FileStep) : Prop :=
  ∀ file top target t fs fs' done, Files.DifferAt (e.Keeps done) fs fs' →
    (∀ f ∈ done ++ FileStep.opened (steps file top target t fs), f ∈ names) →
    (done ++ FileStep.opened (steps file top target t fs)).Nodup →
    Together e names (done ++ FileStep.opened (steps file top target t fs))
      (loader file top target t fs) (loader file top target t fs')

variable {names done : List Text}

theorem Together.settled {r r' : Loaded} (h : Together e names done r r')
    (hs : settled r.1 = .ok ()) : Template.settled r'.1 = .ok () := h.result.ok_iff.mp hs

theorem Together.fault {r r' : Loaded} (h : Together e names done r r') {fault : Fault}
    (hf : r.1 = .error fault) (hw : fault.isCacheWrite = false) :
    ∃ fault', r'.1 = .error fault' ∧ fault'.isCacheWrite = false := by
  have hr := h.result
  rw [settled_eq_error_iff.mpr ⟨hf, hw⟩] at hr
  generalize hx : Template.settled r'.1 = x at hr
  cases hr with
  | same => exact ⟨fault, settled_eq_error_iff.mp hx⟩
  | lost => exact ⟨_, settled_eq_error_iff.mp hx⟩

theorem together_prepareFile (hsep : e.Separate names) (h : Files.DifferAt (e.Keeps done) fs fs')
    (hfile : file ∈ names) (hsub : ∀ f ∈ done, f ∈ names) (t : Template)
    (replaced : Option BlockId) :
    Agrees (e.Keeps names) (t.prepareFile e fs file top replaced).1
        (t.prepareFile e fs' file top replaced).1 ∧
      (t.prepareFile e fs' file top replaced).2 = (t.prepareFile e fs file top replaced).2 := by
  rw [prepareFile, prepareFile]
  rcases h.read (hsep.off hfile hsub) with hread | ⟨⟨q, hq, hkept⟩, hread, hread'⟩
  · rw [hread]
    exact ⟨.same _, rfl⟩
  · have hthrough : ∃ q ∈ Path.passes (e.path file), e.Keeps names q :=
      ⟨q, hq, hkept.imp fun g hg => ⟨hsub g hg.1, hg.2⟩⟩
    have lost : ∀ {fs : Files}, Files.Lost (fs.read (e.path file)) → ∃ why,
        fs.read (e.path file) = .error why ∧ (why = .notFound ∨ why = .notDirectory) := by
      rintro fs (hr | hr)
      · exact ⟨_, hr, .inl rfl⟩
      · exact ⟨_, hr, .inr rfl⟩
    obtain ⟨why, hwhy, hor⟩ := lost hread
    obtain ⟨why', hwhy', hor'⟩ := lost hread'
    rw [hwhy, hwhy']
    exact ⟨.lost hthrough hor hor', rfl⟩

theorem together_prepare (hsep : e.Separate names) (h : Files.DifferAt (e.Keeps done) fs fs')
    (hfile : file ∈ names) (hsub : ∀ f ∈ done, f ∈ names) (hnew : file ∉ done) (top : Text)
    (t : Template) (replaced : Option BlockId) :
    Agrees (e.Keeps names) (t.prepare e fs file top replaced).1
        (t.prepare e fs' file top replaced).1 ∧
      (t.prepare e fs' file top replaced).2 = (t.prepare e fs file top replaced).2 := by
  have hsaved := Engine.savedSnapshot?_congr h (hsep.off hfile hsub)
    (hsep.kept_off hfile hsub hnew)
  rw [prepare, prepare, hsaved]
  cases e.savedSnapshot? fs file with
  | none => exact together_prepareFile hsep h hfile hsub t replaced
  | some s =>
    dsimp only
    cases t.restore e top s with
    | mk restored u =>
      cases restored with
      | none => exact together_prepareFile hsep h hfile hsub u replaced
      | some x => exact ⟨.same _, rfl⟩

theorem together_pull (hload : LoadsTogether e names loader steps)
    (h : Files.DifferAt (e.Keeps done) fs fs') (hown : t.tree.owner i.name = .ok p)
    (hnames : ∀ f ∈ done ++ FileStep.opened (steps i.path i.name (.under p i.name) t fs), f ∈ names)
    (hnodup : (done ++ FileStep.opened (steps i.path i.name (.under p i.name) t fs)).Nodup) :
    Together e names (done ++ FileStep.opened (steps i.path i.name (.under p i.name) t fs))
      (pull d loader i t fs) (pull d loader i t fs') := by
  have hboth := hload i.path i.name (.under p i.name) t fs fs' done h hnames hnodup
  rcases settled_cases (loader i.path i.name (.under p i.name) t fs).1 with hs | ⟨fault, hf, hw⟩
  · rw [pull_of_settled hown rfl hs, pull_of_settled hown rfl (hboth.settled hs), hboth.template]
    cases (loader i.path i.name (.under p i.name) t fs).2.1.tree.lookup i.name with
    | error fault => exact ⟨.same _, rfl, hboth.files⟩
    | ok id => exact ⟨hboth.result, rfl, hboth.files⟩
  · obtain ⟨fault', hf', hw'⟩ := hboth.fault hf hw
    rw [pull_of_fault hown rfl hf hw, pull_of_fault hown rfl hf' hw']
    exact hboth

theorem together_pullAll (hload : LoadsTogether e names loader steps) (is : List Inclusion)
    {unsaved' : Option Fault} (hu : ∀ fault ∈ unsaved, fault.isCacheWrite = true)
    (hu' : ∀ fault ∈ unsaved', fault.isCacheWrite = true) (t : Template)
    (h : Files.DifferAt (e.Keeps done) fs fs')
    (hnames : ∀ f ∈ done ++ FileStep.opened (pullSteps d loader steps is t fs), f ∈ names)
    (hnodup : (done ++ FileStep.opened (pullSteps d loader steps is t fs)).Nodup) :
    Together e names (done ++ FileStep.opened (pullSteps d loader steps is t fs))
      (pullAll d loader is unsaved t fs) (pullAll d loader is unsaved' t fs') := by
  induction is generalizing unsaved unsaved' done t fs fs' with
  | nil =>
    have hsettled : ∀ (fs : Files) {unsaved : Option Fault},
        (∀ fault ∈ unsaved, fault.isCacheWrite = true) →
        pullAll d loader [] unsaved t fs = ((pullAll d loader [] unsaved t fs).1, t, fs) ∧
        settled (pullAll d loader [] unsaved t fs).1 = .ok () := by
      intro fs unsaved hu
      cases unsaved with
      | none => exact ⟨rfl, rfl⟩
      | some fault => exact ⟨rfl, if_pos (hu fault rfl)⟩
    obtain ⟨heq, hs⟩ := hsettled fs hu
    obtain ⟨heq', hs'⟩ := hsettled fs' hu'
    refine ⟨?_, ?_, ?_⟩
    · rw [hs, hs']
      exact .same _
    · rw [heq, heq']
    · rw [heq, heq', pullSteps]
      simpa using h
  | cons i is ih =>
    cases hown : t.tree.owner i.name with
    | error fault =>
      have hpull : ∀ fs, pull d loader i t fs = (.error fault, t, fs) := by
        intro fs
        rw [pull, hown]
      have hw := not_isCacheWrite_of_owner hown
      rw [pullAll_of_fault (hpull fs) rfl hw, pullAll_of_fault (hpull fs') rfl hw, pullSteps, hown]
      exact ⟨.same _, rfl, by simpa using h⟩
    | ok p =>
      -- A snapshot that could not be saved ends neither of the loads; any other fault ends both.
      rcases settled_cases (pull d loader i t fs).1 with hs | ⟨fault, hf, hw⟩
      · rw [pullSteps_of_settled hown rfl hs, FileStep.opened_append, ← List.append_assoc]
          at hnames hnodup ⊢
        have hpull := together_pull (d := d) hload h hown
          (fun f hf => hnames f (List.mem_append_left _ hf)) (List.Nodup.of_append_left hnodup)
        obtain ⟨v, -, hall, hv⟩ := pullAll_of_settled is unsaved rfl hs
        obtain ⟨v', -, hall', hv'⟩ := pullAll_of_settled is unsaved' rfl (hpull.settled hs)
        rw [hall, hall', hpull.template]
        exact ih (hv hu) (hv' hu') _ hpull.files hnames hnodup
      · rw [pullSteps_of_fault hown rfl hf hw] at hnames hnodup ⊢
        have hpull := together_pull (d := d) hload h hown hnames hnodup
        obtain ⟨fault', hf', hw'⟩ := hpull.fault hf hw
        rw [pullAll_of_fault rfl hf hw, pullAll_of_fault rfl hf' hw']
        exact hpull

theorem differAt_finishLoad (e : Engine) (file : Text) (s : Option Snapshot) (r : Loaded) :
    Files.DifferAt (e.Keeps [file]) r.2.2 (finishLoad e file s r).2.2 := by
  rcases files_finishLoad e file s r with ⟨-, hsame⟩ | ⟨s', -, -, hsaved⟩
  · rw [hsame]
    exact .refl _
  · rw [hsaved]
    exact differAt_saveSnapshot e file s' r.2.2

theorem Together.finishLoad {r r' : Loaded} (h : Together e names done r r') (hfile : file ∈ done)
    (s : Option Snapshot) :
    Together e names done (Template.finishLoad e file s r) (Template.finishLoad e file s r') where
  result := by
    rw [settled_finishLoad, settled_finishLoad]
    exact h.result
  template := by
    rw [template_finishLoad, template_finishLoad]
    exact h.template
  files := by
    have hone : ∀ q, e.Keeps [file] q → e.Keeps done q := fun q => .of_mem hfile
    exact ((differAt_finishLoad e file s r).mono hone).symm.trans
      (h.files.trans ((differAt_finishLoad e file s r').mono hone))

theorem opened_saveSteps (s : Option Snapshot) (r : Loaded) :
    FileStep.opened (saveSteps e file s r) = [] := by
  rcases files_finishLoad e file s r with ⟨hsteps, -⟩ | ⟨s', -, hsteps, -⟩ <;> rw [hsteps] <;> rfl

/-- Two loads into one template go the same way, whichever snapshots they can save. -/
theorem together_load (hsep : e.Separate names) (allowed : Nat) :
    LoadsTogether e names (load e allowed) (loadSteps e allowed) := by
  induction allowed with
  | zero =>
    intro file top target t fs fs' done h _ _
    exact ⟨.same _, rfl, by simpa [loadSteps, load] using h⟩
  | succ allowed ih =>
    intro file top target t fs fs' done h hnames hnodup
    rw [loadSteps, FileStep.opened_opens, List.append_cons] at hnames hnodup ⊢
    rw [load_succ, load_succ]
    have hfile : file ∈ names := hnames file (by simp)
    have hnew : file ∉ done := by
      intro hm
      have hdis := List.disjoint_of_nodup_append (List.Nodup.of_append_left hnodup)
      exact hdis hm (List.mem_singleton_self file)
    have hsub : ∀ f ∈ done, f ∈ names := fun f hf => hnames f (by simp [hf])
    have hmore : Files.DifferAt (e.Keeps (done ++ [file])) fs fs' :=
      h.mono fun q hq => hq.imp fun g hg => ⟨List.mem_append_left _ hg.1, hg.2⟩
    obtain ⟨hres, hsame⟩ := together_prepare hsep h hfile hsub hnew top t target.replaced
    generalize t.prepare e fs file top target.replaced = x at hres hsame hnames hnodup ⊢
    generalize t.prepare e fs' file top target.replaced = x' at hres hsame ⊢
    obtain ⟨x, u⟩ := x
    obtain ⟨x', u'⟩ := x'
    dsimp only at hres hsame
    subst hsame
    cases hres with
    | lost hq hwhy hwhy' =>
      exact ⟨.lost hq hwhy hwhy', rfl, by simpa using hmore⟩
    | same x =>
      cases x with
      | error fault => exact ⟨.same _, rfl, by simpa using hmore⟩
      | ok p =>
        dsimp only at hnames hnodup ⊢
        rw [FileStep.opened_append, opened_saveSteps, List.append_nil] at hnames hnodup ⊢
        exact (together_pullAll ih p.inclusions (by simp) (by simp) _ hmore hnames hnodup).finishLoad
          (by simp) _

end Template

namespace FileEdit

open Template

variable {e : Engine} {t : Template} {fs fs' : Files} {edit : FileEdit} {names done : List Text}

theorem result_finish (t : Template) (r : Loaded) (edit : FileEdit) :
    (edit.finish t r).1 = r.1 := by
  cases edit with
  | load file =>
    obtain ⟨r, u, fs⟩ := r
    cases r with
    | ok x => rfl
    | error fault =>
      rw [finish]
      dsimp only
      split <;> rfl
  | add => rfl
  | replace => rfl

theorem template_finish (t : Template) {r r' : Loaded} (hu : r'.2.1 = r.2.1)
    (hs : settled r.1 = .ok () ↔ settled r'.1 = .ok ()) (edit : FileEdit) :
    (edit.finish t r').2.1 = (edit.finish t r).2.1 := by
  cases edit with
  | load file =>
    have hload : ∀ r : Loaded, ((FileEdit.load file).finish t r).2.1 =
        if settled r.1 = .ok () then { r.2.1 with state := t.state, current := rootId }.renew
        else t := by
      rintro ⟨r, u, fs⟩
      cases r with
      | ok x => rfl
      | error fault => cases hw : fault.isCacheWrite <;> simp [finish, settled, hw]
    rw [hload, hload, hu]
    simp only [hs]
  | add => exact hu
  | replace => exact hu

theorem together_run (h : Files.DifferAt (e.Keeps done) fs fs') (t : Template) (edit : FileEdit)
    (hnodup : (done ++ FileStep.opened (edit.steps e t fs)).Nodup)
    (hsep : e.Separate (done ++ FileStep.opened (edit.steps e t fs))) :
    Together e (done ++ FileStep.opened (edit.steps e t fs))
      (done ++ FileStep.opened (edit.steps e t fs)) (edit.run e t fs) (edit.run e t fs') := by
  rw [steps] at hnodup hsep ⊢
  rw [run_eq, run_eq]
  cases hj : edit.job t with
  | error fault => exact ⟨.same _, rfl, by simpa using h⟩
  | ok j =>
    rw [hj] at hnodup hsep
    have hload := together_load hsep (e.maxDepth + 1) j.file j.top j.target j.into fs fs' done h
      (fun f hf => hf) hnodup
    refine ⟨?_, template_finish t hload.template hload.result.ok_iff edit, ?_⟩
    · rw [result_finish, result_finish]
      exact hload.result
    · rw [files_finish, files_finish]
      exact hload.files

end FileEdit

end BlockTemplate
