import BlockTemplate.Proofs.Fragment.Cutting
import BlockTemplate.Proofs.Snapshot.Listed
import BlockTemplate.Proofs.Snapshot.RoundTrip
import BlockTemplate.Proofs.Template.Include
import BlockTemplate.Proofs.Template.Parts

/-!
# What authors write

The variables that an author writes are those of sources and of the texts of files. A snapshot that a
load has saved brings no others back, so if the directory for snapshots is empty at first and only loads
save any there, a template has no author's variable that is not in a source or in a text that was read.
-/

namespace BlockTemplate

open Inclusion (numbered)

namespace Engine

/-- A file with this text lists the variable, other than as the name given to an inclusion. -/
def Writes (e : Engine) (text v : Text) : Prop :=
  ∃ (t u : Template) (top : Text) (replaced : Option BlockId) (p : Prepared), t.tree.Sound ∧
    t.prepareText e top replaced text = (.ok p, u) ∧ p.Writes v

def WritesSource (e : Engine) (source v : Text) : Prop :=
  ∃ (t : Tree) (top : Text) (replaced : Option BlockId) (f : Fragment), t.Sound ∧
    (Fragment.compile e.dialect t top source replaced).1 = .ok f ∧ f.HasVar v

def keptSnapshot? (e : Engine) (fs : Files) (file : Text) : Option Snapshot := do
  let bytes ← (fs.bytes (Path.join (← e.cacheDir) (cachedName file))).toOption
  Snapshot.ofBytes? bytes

def KeepsOf (e : Engine) (texts : Text → Prop) (fs : Files) : Prop :=
  ∀ file s, e.keptSnapshot? fs file = some s → ∃ text, texts text ∧ e.Exports text s

variable {e : Engine} {fs : Files} {file text v : Text} {s s' : Snapshot}

theorem Exports.writes (h : e.Exports text s) {t : Template} {top : Text} {f : Fragment}
    {is : List Inclusion} (hr : (t.restore e top s).1 = some (f, is))
    (hv : (⟨f, is, false⟩ : Prepared).Writes v) (hmemo : CallId.isMemo v = false) :
    e.Writes text v := by
  obtain ⟨u, w, top', target, p, hu, hadmits, htext, rfl⟩ := h
  have hprep := Template.prepares_text (e := e) hu top' target.replaced text
  rw [htext] at hprep
  have hw := hprep.carried.sound
  have hready := hprep.ready p rfl
  have hadmits' := hprep.carried.admits hadmits
  rcases Snapshot.comes_restore hr hv.1 with ⟨id, rfl⟩ | ⟨i, hi, hiv⟩ | ⟨hlisted, hnot⟩
  · rw [CallId.isMemo_memo] at hmemo
    cases hmemo
  · exact absurd hiv (hv.2 i hi)
  · obtain ⟨⟨b, hb⟩, hbelow⟩ := Template.below_attach e.dialect hw hadmits' hready
    obtain ⟨x, d, hx, hd, hvd⟩ := Snapshot.hasVar_take
      (Template.tree_attach e.dialect hw hadmits' hready (hprep.named_after rfl)) hb hlisted
    rw [Snapshot.inclusions_take_any] at hnot
    exact ⟨u, w, top', target.replaced, p, hu, htext, hbelow x d hx hd v hvd, hnot⟩

theorem keptSnapshot?_of_saved (h : e.savedSnapshot? fs file = some s) :
    e.keptSnapshot? fs file = some s := by
  rw [savedSnapshot?] at h
  rw [keptSnapshot?]
  cases hdir : e.cacheDir with
  | none =>
    rw [hdir] at h
    cases h
  | some dir =>
    rw [hdir] at h
    simp only [Option.bind_eq_bind, Option.bind_some] at h ⊢
    split at h
    · exact h
    · cases h

theorem keptSnapshot?_eq_some_iff : e.keptSnapshot? fs file = some s ↔
    ∃ dir bytes, e.cacheDir = some dir ∧ fs.bytes (Path.join dir (cachedName file)) = .ok bytes ∧
      Snapshot.ofBytes? bytes = some s := by
  rw [keptSnapshot?]
  cases e.cacheDir with
  | none => simp
  | some dir =>
    simp only [Option.bind_eq_bind, Option.bind_some, Option.some.injEq, exists_and_left,
      exists_eq_left']
    cases fs.bytes (Path.join dir (cachedName file)) <;> simp [Except.toOption]

theorem of_keptSnapshot?_saveSnapshot {g : Text}
    (h : e.keptSnapshot? (Template.saveSnapshot e file s fs).2 g = some s') :
    e.keptSnapshot? fs g = some s' ∨ s' = s := by
  let saved : Place → Prop := fun q =>
    ∃ stamp, (Template.saveSnapshot e file s fs).2.at? q = some ⟨.file s.toBytes, stamp⟩
  have hdiffer : Files.DifferAt saved fs (Template.saveSnapshot e file s fs).2 := by
    intro q
    rcases Template.differAt_saveSnapshot e file s fs q with hsame | ⟨-, hdirs⟩
    · exact .inl hsame
    · rcases Template.at?_saveSnapshot e file s fs q with hsame | ⟨-, stamp, hput, -⟩
      · exact .inl hsame
      · exact .inr ⟨⟨stamp, hput⟩, hdirs⟩
  obtain ⟨dir, bytes, hdir, hbytes, hs'⟩ := keptSnapshot?_eq_some_iff.mp h
  obtain ⟨stamp, hnode⟩ := Files.bytes_eq_ok_iff.mp hbytes
  obtain ⟨q, hl, hat⟩ := Files.node?_eq_some_iff.mp hnode
  have hleads := Files.leadsTo_of_locate hl
  by_cases hq : saved q
  · obtain ⟨stamp', hput⟩ := hq
    rw [hput] at hat
    cases hat
    rw [Snapshot.ofBytes?_toBytes] at hs'
    exact .inr (Option.some.inj hs').symm
  · have hoff : ∀ place, Path.leadsTo (Path.join dir (cachedName g)) = some place →
        ¬ saved place := by
      intro place hplace
      rw [hleads, Option.some.injEq] at hplace
      exact hplace ▸ hq
    refine .inl (keptSnapshot?_eq_some_iff.mpr ⟨dir, bytes, hdir, ?_, hs'⟩)
    rcases hdiffer.bytes hoff with hsame | ⟨-, -, hlost⟩
    · rw [← hsame, hbytes]
    · rcases hlost with hlost | hlost <;> rw [hlost] at hbytes <;> cases hbytes

theorem keepsOf_of_list? {dir : Text} (hdir : e.cacheDir = some dir)
    (hempty : fs.list? dir = some []) (texts : Text → Prop) : e.KeepsOf texts fs := by
  intro file s h
  obtain ⟨dir', bytes, hdir', hbytes, -⟩ := keptSnapshot?_eq_some_iff.mp h
  rw [hdir, Option.some.injEq] at hdir'
  subst hdir'
  obtain ⟨stamp, hnode⟩ := Files.bytes_eq_ok_iff.mp hbytes
  obtain ⟨q, hl, hat⟩ := Files.node?_eq_some_iff.mp hnode
  have hkept : e.keptAt? file = some q :=
    (keptAt?_eq hdir file).trans (Files.leadsTo_of_locate hl)
  rw [at?_of_list? hdir hempty hkept] at hat
  cases hat

end Engine

def FileStep.text? (e : Engine) : FileStep → Option Text
  | .opens file fs => (fs.read (e.path file)).toOption
  | .saves .. => none

namespace Template

variable {e : Engine} {t u : Template} {fs : Files} {file top v : Text} {target : Target}
  {texts : Text → Prop} {d : Dialect}
  {loader : Text → Text → Target → Template → Files → Loaded}
  {parts : Text → Text → Target → Template → Files → List Prepared}
  {steps : Text → Text → Target → Template → Files → List FileStep}

theorem keptBySteps_exports (e : Engine) (texts : Text → Prop) :
    KeptBySteps e (fun file fs => ∀ text ∈ FileStep.text? e (.opens file fs), texts text)
      fun l fs fs' => e.KeepsOf texts fs →
        e.KeepsOf texts fs' ∧ ∀ file fs'', .opens file fs'' ∈ l → e.KeepsOf texts fs'' where
  none := fun fs h => ⟨h, by simp⟩
  opens := by
    refine fun file fs h => ⟨h, fun g fs'' hg => ?_⟩
    cases List.mem_singleton.mp hg
    exact h
  append := by
    intro l l' fs fs' fs'' h h' hkeeps
    obtain ⟨hmid, hopens⟩ := h hkeeps
    obtain ⟨hend, hopens'⟩ := h' hmid
    refine ⟨hend, fun g files hg => ?_⟩
    exact (List.mem_append.mp hg).elim (hopens g files) (hopens' g files)
  saves := by
    intro file text s l fs fs' hopen _ hread hexports _ hkeeps
    refine ⟨fun g s' hs' => ?_, by simp⟩
    rcases Engine.of_keptSnapshot?_saveSnapshot hs' with hold | rfl
    · exact hkeeps g s' hold
    · exact ⟨text, hopen text (by simp [FileStep.text?, hread, Except.toOption]), hexports⟩

def PreparedAt (e : Engine) (l : List FileStep) (p : Prepared) : Prop :=
  ∃ (file : Text) (fs : Files) (t : Template) (top : Text) (replaced : Option BlockId),
    .opens file fs ∈ l ∧ t.tree.Sound ∧ (t.prepare e fs file top replaced).1 = .ok p

theorem PreparedAt.mono {l l' : List FileStep} {p : Prepared} (h : PreparedAt e l p) (hsub : l ⊆ l') :
    PreparedAt e l' p := by
  obtain ⟨file, fs, t, top, replaced, hmem, hrest⟩ := h
  exact ⟨file, fs, t, top, replaced, hsub hmem, hrest⟩

theorem preparedAt_pullParts (hinc : IncludesFiles loader)
    (hload : ∀ file top p placeholder t fs, t.tree.Sound → t.tree.Live p →
      ∀ q ∈ parts file top (.under p placeholder) t fs,
        PreparedAt e (steps file top (.under p placeholder) t fs) q)
    (is : List Inclusion) (ht : t.tree.Sound) (fs : Files) :
    ∀ q ∈ pullParts d loader parts is t fs, PreparedAt e (pullSteps d loader steps is t fs) q := by
  induction is generalizing t fs with
  | nil => exact fun q hq => absurd hq List.not_mem_nil
  | cons i is ih =>
    have hcarried := carried_pull (d := d) hinc ht i fs
    intro q hq
    rw [pullParts] at hq
    cases hown : t.tree.owner i.name with
    | error fault =>
      rw [hown] at hq
      cases hq
    | ok p =>
      rw [hown] at hq
      obtain ⟨b, hb, -⟩ := Tree.live_of_owner ht.tree hown
      have hfirst := hload i.path i.name p i.name t fs ht ⟨b, hb⟩
      rcases settled_cases (pull d loader i t fs).1 with hs | ⟨fault, hf, hw⟩
      · rw [hs] at hq
        rw [pullSteps_of_settled hown rfl hs]
        rcases List.mem_append.mp hq with hq | hq
        · exact (hfirst q hq).mono (List.subset_append_left _ _)
        · exact (ih hcarried.sound _ q hq).mono (List.subset_append_right _ _)
      · rw [settled_eq_error_iff.mpr ⟨hf, hw⟩] at hq
        rw [pullSteps_of_fault hown rfl hf hw]
        exact hfirst q (by simpa using hq)

theorem preparedAt_loadParts (e : Engine) (allowed : Nat) (file : Text) (target : Target)
    (ht : t.tree.Sound) (hadmits : t.Admits top target) (fs : Files) :
    ∀ q ∈ loadParts e allowed file top target t fs,
      PreparedAt e (loadSteps e allowed file top target t fs) q := by
  induction allowed generalizing file top target t fs with
  | zero => exact fun q hq => absurd hq List.not_mem_nil
  | succ allowed ih =>
    have hsound : ∀ p u, t.prepare e fs file top target.replaced = (.ok p, u) →
        (u.attach e.dialect p.fragment target).2.tree.Sound := fun p u => sound_prepared ht hadmits
    rw [loadParts, loadSteps]
    cases hr : t.prepare e fs file top target.replaced with
    | mk r u =>
      cases r with
      | error fault => exact fun q hq => absurd hq List.not_mem_nil
      | ok p =>
        intro q hq
        rcases List.mem_cons.mp hq with rfl | hq
        · exact ⟨file, fs, t, top, target.replaced, List.mem_cons_self, ht, by rw [hr]⟩
        · refine (preparedAt_pullParts (d := e.dialect) (includes_load e allowed)
            (fun file top p placeholder t fs hs hp => ih file (.under p placeholder) hs hp fs)
            p.inclusions (hsound p u hr) fs q hq).mono fun x hx => ?_
          exact List.mem_cons_of_mem _ (List.mem_append_left _ hx)

theorem writes_of_prepareFile {replaced : Option BlockId} {p : Prepared} (ht : t.tree.Sound)
    (hp : (t.prepareFile e fs file top replaced).1 = .ok p) (hv : p.Writes v) :
    ∃ text, fs.read (e.path file) = .ok text ∧ e.Writes text v := by
  obtain ⟨text, hread, htext⟩ := text_of_prepareFile
    (show t.prepareFile e fs file top replaced = (.ok p, (t.prepareFile e fs file top replaced).2) from
      Prod.ext hp rfl)
  exact ⟨text, hread, t, _, top, replaced, p, ht, htext, hv⟩

theorem writes_of_prepare {replaced : Option BlockId} {p : Prepared} (ht : t.tree.Sound)
    (hp : (t.prepare e fs file top replaced).1 = .ok p)
    (hread : ∀ text ∈ FileStep.text? e (.opens file fs), texts text) (hkept : e.KeepsOf texts fs)
    (hv : p.Writes v) (hmemo : CallId.isMemo v = false) : ∃ text, texts text ∧ e.Writes text v := by
  have hfile : ∀ u : Template, u.tree.Sound → (u.prepareFile e fs file top replaced).1 = .ok p →
      ∃ text, texts text ∧ e.Writes text v := by
    intro u hu hp
    obtain ⟨text, htext, hwrites⟩ := writes_of_prepareFile hu hp hv
    exact ⟨text, hread text (by simp [FileStep.text?, htext, Except.toOption]), hwrites⟩
  rw [prepare] at hp
  split at hp
  · exact hfile t ht hp
  · rename_i s hs
    obtain ⟨text, htexts, hexports⟩ := hkept file s (Engine.keptSnapshot?_of_saved hs)
    obtain ⟨hc, -⟩ := carried_restore (e := e) ht top s
    split at hp
    · rename_i u hr
      rw [hr] at hc
      exact hfile u hc.sound hp
    · rename_i f is u hr
      split at hp
      · cases hp
      · cases hp
        exact ⟨text, htexts, hexports.writes (congrArg Prod.fst hr) hv hmemo⟩

end Template

open Template

def Operation.steps (e : Engine) (s : Session) : Operation → List FileStep
  | .loadFile file => (FileEdit.load file).steps e s.template s.files
  | .addBlockFile placeholder block file =>
    (FileEdit.add placeholder block file).steps e s.template s.files
  | .replaceBlockFile block file keepOutput =>
    (FileEdit.replace block file keepOutput).steps e s.template s.files
  | _ => []

/--
An operation reads these sources, or files with these texts. Where it changes the files, it leaves no
snapshot that was not kept before.
-/
def Operation.Reads (e : Engine) (sources texts : Text → Prop) (s : Session) : Operation → Prop
  | .compile source | .setTemplate source | .addBlock _ _ source | .replaceBlock _ source _ =>
    sources source
  | .files fs => ∀ file x, e.keptSnapshot? fs file = some x → e.keptSnapshot? s.files file = some x
  | op => ∀ step ∈ op.steps e s, ∀ text ∈ step.text? e, texts text

namespace Session

def Reads (e : Engine) (sources texts : Text → Prop) : Session → List Operation → Prop
  | _, [] => True
  | s, op :: ops => op.Reads e sources texts s ∧ Reads e sources texts (s.apply e op) ops

/-- An author wrote the variable in one of these sources or texts. -/
def WrittenIn (e : Engine) (sources texts : Text → Prop) (v : Text) : Prop :=
  (∃ source, sources source ∧ e.WritesSource source v) ∨ ∃ text, texts text ∧ e.Writes text v

variable {e : Engine} {sources texts : Text → Prop} {s : Session} {past : List Prepared} {v : Text}

theorem writtenIn_edit (edit : FileEdit) (ht : s.template.tree.Sound)
    (hread : ∀ step ∈ edit.steps e s.template s.files, ∀ text ∈ step.text? e, texts text)
    (hkept : e.KeepsOf texts s.files) (hmemo : CallId.isMemo v = false) :
    e.KeepsOf texts (edit.run e s.template s.files).2.2 ∧
      ∀ {file top target into}, edit.job s.template = .ok ⟨file, top, target, into⟩ →
        ∀ p ∈ loadParts e (e.maxDepth + 1) file top target into s.files, p.Writes v →
          WrittenIn e sources texts v := by
  obtain ⟨hafter, hbetween⟩ := FileEdit.steps_run (keptBySteps_exports e texts) ht s.files edit
    (fun _ _ h => hread _ h) hkept
  refine ⟨hafter, fun {file top target into} hj p hp hv => ?_⟩
  obtain ⟨hsound, hadmits⟩ := FileEdit.admits_job ht hj
  obtain ⟨g, fs, t, top', replaced, hmem, ht', hprep⟩ :=
    preparedAt_loadParts e _ file target hsound hadmits s.files p hp
  have hsteps : edit.steps e s.template s.files =
      loadSteps e (e.maxDepth + 1) file top target into s.files := by
    rw [FileEdit.steps, hj]
  rw [← hsteps] at hmem
  exact .inr (writes_of_prepare ht' hprep (hread _ hmem) (hbetween g fs hmem) hv hmemo)

theorem writtenIn_sourceParts {t : Tree} (ht : t.Sound) {top source : Text}
    {replaced : Option BlockId} (hs : sources source) :
    ∀ p ∈ sourceParts e t top source replaced, p.Writes v → WrittenIn e sources texts v := by
  intro p hp hv
  rw [sourceParts] at hp
  split at hp
  · cases hp
  · rename_i f hf
    rw [List.mem_singleton.mp hp] at hv
    exact .inl ⟨source, hs, t, top, replaced, f, ht, hf, hv.1⟩

section Operations

variable (hpast : ∀ p ∈ past, p.Writes v → WrittenIn e sources texts v)
include hpast

theorem writtenIn_append {new : List Prepared}
    (hnew : ∀ p ∈ new, p.Writes v → WrittenIn e sources texts v) :
    ∀ p ∈ past ++ new, p.Writes v → WrittenIn e sources texts v :=
  fun p hp => (List.mem_append.mp hp).elim (hpast p) (hnew p)

theorem writtenIn_setTemplate {source : Text} (hsource : sources source) :
    ∀ p ∈ (Operation.setTemplate source).parts e s past, p.Writes v →
      WrittenIn e sources texts v := by
  have hnew : ∀ p ∈ sourceParts e .empty rootName source (some rootId), p.Writes v →
      WrittenIn e sources texts v := writtenIn_sourceParts Tree.sound_empty hsource
  rw [Operation.parts]
  split
  · exact hpast
  · exact hnew

theorem writtenIn_apply (hs : s.template.Sound) (hkept : e.KeepsOf texts s.files)
    (hmemo : CallId.isMemo v = false) (op : Operation) (hop : op.Reads e sources texts s) :
    e.KeepsOf texts (s.apply e op).files ∧
      ∀ p ∈ op.parts e s past, p.Writes v → WrittenIn e sources texts v := by
  -- Operations on files keep what is saved an export; the others leave the files alone.
  cases op with
  | compile source =>
    refine ⟨?_, writtenIn_setTemplate (s := s) hpast hop⟩
    rw [apply]
    split <;> exact hkept
  | setTemplate source => exact ⟨hkept, writtenIn_setTemplate hpast hop⟩
  | loadFile file =>
    obtain ⟨hafter, hnew⟩ := writtenIn_edit (.load file) hs.tree hop hkept hmemo
    refine ⟨hafter, ?_⟩
    rw [Operation.parts]
    split
    · exact hpast
    · exact hnew rfl
  | addBlock placeholder block source =>
    refine ⟨hkept, ?_⟩
    rw [Operation.parts]
    split
    · exact hpast
    · exact writtenIn_append hpast (writtenIn_sourceParts hs.tree hop)
  | addBlockFile placeholder block file =>
    obtain ⟨hafter, hnew⟩ := writtenIn_edit (.add placeholder block file) hs.tree hop hkept hmemo
    refine ⟨hafter, ?_⟩
    rw [Operation.parts]
    cases hp : s.template.placeFor placeholder block with
    | error fault => exact hpast
    | ok p => exact writtenIn_append hpast (hnew (by rw [FileEdit.job, hp]; rfl))
  | replaceBlock block source keepOutput =>
    refine ⟨hkept, ?_⟩
    rw [Operation.parts]
    split
    · exact hpast
    · exact writtenIn_append hpast (writtenIn_sourceParts hs.tree hop)
  | replaceBlockFile block file keepOutput =>
    obtain ⟨hafter, hnew⟩ :=
      writtenIn_edit (.replace block file keepOutput) hs.tree hop hkept hmemo
    refine ⟨hafter, ?_⟩
    rw [Operation.parts]
    cases hid : s.template.tree.lookup block with
    | error fault => exact hpast
    | ok id => exact writtenIn_append hpast (hnew (by rw [FileEdit.job, hid]; rfl))
  | files fs => exact ⟨fun file x hx => hkept file x (hop file x hx), hpast⟩
  | _ => exact ⟨hkept, hpast⟩

end Operations

theorem writtenIn_run (hs : s.template.Sound) (hkept : e.KeepsOf texts s.files)
    (hmemo : CallId.isMemo v = false)
    (hpast : ∀ p ∈ past, p.Writes v → WrittenIn e sources texts v) {ops : List Operation}
    (hops : s.Reads e sources texts ops) :
    ∀ p ∈ s.parts e past ops, p.Writes v → WrittenIn e sources texts v := by
  induction ops generalizing s past with
  | nil => exact hpast
  | cons op ops ih =>
    obtain ⟨hkept', hparts⟩ := writtenIn_apply hpast hs hkept hmemo op hops.1
    exact ih (sound_apply e hs op) hkept' hparts hops.2

theorem Authored.writtenIn {dir : Text} {fs : Files} {ops : List Operation}
    (h : Authored e (start fs) ops v) (hdir : e.cacheDir = some dir) (hempty : fs.list? dir = some [])
    (hops : (start fs).Reads e sources texts ops) (hmemo : CallId.isMemo v = false) :
    WrittenIn e sources texts v := by
  obtain ⟨p, hp, hv⟩ := h.writes
  exact writtenIn_run (s := start fs) sound_empty (Engine.keepsOf_of_list? hdir hempty texts) hmemo
    (by simp) hops p hp hv

end Session

namespace Fragment

variable {t : Tree} {top source : Text} {d : Document} {replaced : Option BlockId} {f : Fragment}

theorem names_of_compile (hp : (d.page []).Plain)
    (hs : Tag.stripComments source = (d.page []).print)
    (h : (compile .standard t top source replaced).1 = .ok f) :
    (top :: (d.page []).names).Nodup ∧
      ∀ n ∈ top :: (d.page []).names, t.contains n = true → n ∈ leavingNames t replaced := by
  have hn : (top :: (d.page []).names).Nodup := by
    by_contra hn
    obtain ⟨name, hname⟩ := (extract_page top hp.clean).2 hn
    rw [compile, hs, hname] at h
    cases h
  refine ⟨hn, ?_⟩
  rw [compile, hs, (extract_page top hp.clean).1 hn] at h
  cases hcheck : checkNames t (leavingNames t replaced) []
      (withParents (ofPage top (d.page []))) with
  | error fault =>
    simp only [hcheck] at h
    cases h
  | ok x =>
    intro n hn
    rw [← names_ofPage top (d.page []), ← names_withParents] at hn
    obtain ⟨b, hb, rfl⟩ := List.mem_map.mp hn
    exact (named_of_checkNames hcheck).leaving b hb

theorem exists_section_of_hasVar (hp : (d.page []).Plain)
    (hs : Tag.stripComments source = (d.page []).print) (hd : t.calls.Distinct)
    (h : (compile .standard t top source replaced).1 = .ok f) {v : Text} (hv : f.HasVar v) :
    ∃ s ∈ d.sections top, v ∈ s.vars := by
  obtain ⟨hn, hfree⟩ := names_of_compile hp hs h
  rw [compile_into hp hs hn hfree hd] at h
  cases h
  obtain ⟨b, hb, hv⟩ := hv
  obtain ⟨i, hi⟩ := List.mem_iff_getElem?.mp hb
  have hlook := look_filledAs
    (CallTable.internList ((d.page []).calls ++ (d.page []).innerCalls) t.calls).numberOf top
    (d.page []) i
  rw [look, hi, eq_comm, Option.map_eq_some_iff] at hlook
  obtain ⟨x, hx, rfl⟩ := hlook
  have hvars : v ∈ x.2.variableNames := (mem_foldl_addNew.mp hv).resolve_left List.not_mem_nil
  have htells := d.tells_blocks top
  obtain ⟨hix, rfl⟩ := List.getElem?_eq_some_iff.mp hx
  have his : i < (d.sections top).length := htells.length_eq ▸ hix
  obtain ⟨body, hbody, hown⟩ := htells.get hix his
  rw [List.get_eq_getElem] at hbody
  rw [hbody, body.variableNames_page] at hvars
  exact ⟨_, List.get_mem _ _, hown ▸ body.mem_vars_own.mpr hvars⟩

end Fragment

theorem Inclusion.exists_number {next k : Nat} {paths : List Text} (hle : next ≤ k)
    (hlt : k < next + paths.length) : ∃ i ∈ number next paths, i.name = numbered k := by
  induction paths generalizing next with
  | nil => exact absurd hlt (Nat.not_lt.mpr hle)
  | cons path paths ih =>
    rw [List.length_cons] at hlt
    by_cases hk : next = k
    · subst hk
      exact ⟨_, List.mem_cons_self, rfl⟩
    · have hlt' : k < next + 1 + paths.length := by omega
      obtain ⟨i, hi, hname⟩ := ih (Nat.lt_of_le_of_ne hle hk) hlt'
      exact ⟨i, List.mem_cons_of_mem _ hi, hname⟩

namespace Draft

def around (d : Draft) : Document := d.expand fun _ => .nil

structure Unnumbered (d : Draft) : Prop where
  plain : d.around.Plain
  paths : ∀ path ∈ d.paths, Inclusion.isPath path = true
  unused : ∀ k, d.around.Unused (numbered k)

theorem Unnumbered.number_of_marked {d : Draft} (h : d.Unnumbered) {next k : Nat} {top : Text}
    {s : Section} (hs : s ∈ (d.marked next).sections top) (hk : numbered k ∈ s.vars) :
    ∃ i ∈ Inclusion.number next d.paths, i.name = numbered k := by
  by_cases hin : next ≤ k ∧ k < next + d.paths.length
  · exact Inclusion.exists_number hin.1 hin.2
  · have hcount := d.count_marked (fun _ => .nil) next k (h.unused k).absent
    rw [if_neg hin, List.count_eq_zero] at hcount
    have hunused : (d.marked next).Unused (numbered k) :=
      ⟨hcount, d.bare_marked (fun _ => .nil) next (h.unused k).bare⟩
    exact absurd hk ((d.marked next).not_mem_vars_sections hunused top s hs)

end Draft

namespace Engine

variable {e : Engine}

theorem not_writesSource_print (he : e.dialect = .standard) {d : Document} (hd : d.Plain)
    (h : ∀ k, d.Unused (numbered k)) (k : Nat) : ¬ e.WritesSource d.print (numbered k) := by
  rintro ⟨t, top, replaced, f, ht, hf, hk⟩
  rw [he] at hf
  obtain ⟨s, hs, hv⟩ := Fragment.exists_section_of_hasVar hd.page
    (Document.stripComments_print hd) ht.calls hf hk
  exact d.not_mem_vars_sections (h k) top s hs hv

theorem not_writes_print (he : e.dialect = .standard) {d : Draft} (hd : d.Unnumbered) (k : Nat) :
    ¬ e.Writes d.print (numbered k) := by
  rintro ⟨t, u, top, replaced, p, ht, hp, hlisted, hnot⟩
  have hmarked : (d.marked t.nextInclusion).Plain := Draft.plain_marked t.nextInclusion hd.plain
  have hextract := Draft.extract_print t.nextInclusion hmarked.page.clean hd.paths
  rw [Template.prepareText, he, hextract] at hp
  dsimp only at hp
  generalize hr : Fragment.compile .standard t.tree top (d.marked t.nextInclusion).print replaced = r
    at hp
  obtain ⟨r, calls⟩ := r
  cases r with
  | error fault => cases hp
  | ok f =>
    cases hp
    obtain ⟨s, hs, hv⟩ := Fragment.exists_section_of_hasVar hmarked.page
      (Document.stripComments_print hmarked) ht.calls (congrArg Prod.fst hr) hlisted
    obtain ⟨i, hi, hik⟩ := hd.number_of_marked hs hv
    exact hnot i hi hik

end Engine

namespace Session

def footed : Document :=
  .block ['a'] (.placeholder ['x'] <| .block ['b']
      (.call ['u'] ["\x7bx\x7d".toList] <| .call ['h'] [['1']] .nil) .nil) <|
    .block ['c'] (.call ['u'] ["\x7bx\x7d".toList] <| .placeholder ['y'] .nil) .nil

def cellDraft : Draft := .placeholder ['z'] <| .call ['r'] ["\x7bz\x7d".toList] .nil

def rowDraft : Draft :=
  .block ['d'] (.call ['j'] ["\x7bz\x7d".toList] .nil) <| .inclusion "cell.html".toList .nil

def rowFiles : Files :=
  ((Files.empty.makeDirectory "cache".toList).write "cell.html".toList (Text.utf8 cellDraft.print)
    ⟨1, 0⟩).write "row.html".toList (Text.utf8 rowDraft.print) ⟨1, 0⟩

/-- The snapshot of the row is saved before there is the block that the row replaces. -/
def footedSteps : List Operation :=
  [.loadFile "row.html".toList, .compile footed.print, .setLocals (some ['y']) (.text ['2']),
    .render ['c'], .hideBlock ['c'], .setCurrentBlock ['b']]

theorem plain_footed : footed.Plain := ⟨⟨by decide, by decide, by decide⟩, by decide⟩

theorem unused_footed (k : Nat) : footed.Unused (numbered k) where
  absent := Inclusion.numbered_not_mem (by decide) k
  bare := ⟨⟨⟨Inclusion.numbered_not_mem (by decide) k, Inclusion.numbered_not_mem (by decide) k,
    trivial⟩, trivial⟩, ⟨Inclusion.numbered_not_mem (by decide) k, trivial⟩, trivial⟩

theorem unnumbered_cellDraft : cellDraft.Unnumbered where
  plain := ⟨⟨by decide, by decide, by decide⟩, by decide⟩
  paths := by decide
  unused := fun k => ⟨Inclusion.numbered_not_mem (by decide) k,
    ⟨Inclusion.numbered_not_mem (by decide) k, trivial⟩⟩

theorem unnumbered_rowDraft : rowDraft.Unnumbered where
  plain := ⟨⟨by decide, by decide, by decide⟩, by decide⟩
  paths := by decide
  unused := fun k => ⟨Inclusion.numbered_not_mem (by decide) k,
    ⟨⟨Inclusion.numbered_not_mem (by decide) k, trivial⟩, trivial⟩⟩

theorem not_authored_footed (k : Nat) :
    ¬ Authored .caching (start rowFiles) footedSteps (numbered k) := by
  intro h
  have hreads : (start rowFiles).Reads .caching (· = footed.print)
      (· ∈ [cellDraft.print, rowDraft.print]) footedSteps :=
    ⟨show ∀ step ∈ (Operation.loadFile _).steps .caching (start rowFiles),
      ∀ text ∈ step.text? .caching, text ∈ [cellDraft.print, rowDraft.print] by decide +kernel,
      rfl, List.forall_mem_nil _, List.forall_mem_nil _, List.forall_mem_nil _,
      List.forall_mem_nil _, trivial⟩
  rcases h.writtenIn rfl (by decide +kernel) hreads (Inclusion.isMemo_numbered k) with
    ⟨source, rfl, hw⟩ | ⟨text, htext, hw⟩
  · exact Engine.not_writesSource_print rfl plain_footed unused_footed k hw
  · rcases List.mem_cons.mp htext with rfl | htext
    · exact Engine.not_writes_print rfl unnumbered_cellDraft k hw
    · rw [List.mem_singleton.mp htext] at hw
      exact Engine.not_writes_print rfl unnumbered_rowDraft k hw

theorem edits_confined_footed :
    let s := (start rowFiles).run .caching footedSteps
    let edit : BlockEdit := .replaceFile ['a'] "row.html".toList false
    let r := edit.run .caching s.template s.files
    (∀ k, ¬ Authored .caching (start rowFiles) footedSteps (numbered k)) ∧
      Confined s.template (edit.target s.template) r ∧ s.template.currentBlock = ['b'] ∧
      r.2.currentBlock = rootName ∧ r.2.tree.lookup ['d'] = s.template.tree.lookup ['b'] :=
  ⟨not_authored_footed, edits_confined .caching rowFiles _ footedSteps _ not_authored_footed,
    by decide +kernel⟩

end Session

end BlockTemplate
