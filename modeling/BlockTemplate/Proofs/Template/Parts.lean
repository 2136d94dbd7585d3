import BlockTemplate.Proofs.Template.Course
import BlockTemplate.Proofs.Template.Spared
import BlockTemplate.Proofs.Tree.Listed

/-!
# The parts of a template

A template is put together from sources that were compiled and files that were loaded, each with its
inclusions. A variable that it lists came with one of these parts: either an author wrote it, or it is
the name that an inclusion was given. The numbers in such names are below the next one to be given out,
so where authors name no variable like an inclusion, an edit leaves all other blocks what they are.
-/

namespace BlockTemplate

open Inclusion (numbered)

/-- A variable that the blocks list and that none of their inclusions was given as its name. -/
def Prepared.Writes (p : Prepared) (v : Text) : Prop :=
  p.fragment.HasVar v ∧ ∀ i ∈ p.inclusions, i.name ≠ v

namespace Template

variable {e : Engine} {t u : Template} {fs : Files} {file top : Text} {target : Target}
  {d : Dialect} {loader : Text → Text → Target → Template → Files → Loaded}
  {parts : Text → Text → Target → Template → Files → List Prepared} {past new : List Prepared}

def sourceParts (e : Engine) (t : Tree) (top source : Text) (replaced : Option BlockId) :
    List Prepared :=
  match (Fragment.compile e.dialect t top source replaced).1 with
  | .error _ => []
  | .ok f => [⟨f, [], true⟩]

def pullParts (d : Dialect) (load : Text → Text → Target → Template → Files → Loaded)
    (parts : Text → Text → Target → Template → Files → List Prepared) :
    List Inclusion → Template → Files → List Prepared
  | [], _, _ => []
  | i :: rest, t, fs =>
    match t.tree.owner i.name with
    | .error _ => []
    | .ok parent =>
      parts i.path i.name (.under parent i.name) t fs ++
        match settled (pull d load i t fs).1 with
        | .error _ => []
        | .ok () => pullParts d load parts rest (pull d load i t fs).2.1 (pull d load i t fs).2.2

def loadParts (e : Engine) :
    (allowed : Nat) → (file top : Text) → Target → Template → Files → List Prepared
  | 0, _, _, _, _, _ => []
  | allowed + 1, file, top, target, t, fs =>
    match t.prepare e fs file top target.replaced with
    | (.error _, _) => []
    | (.ok p, u) =>
      p :: pullParts e.dialect (load e allowed) (loadParts e allowed) p.inclusions
        (u.attach e.dialect p.fragment target).2 fs

/--
The parts account for the template: every variable that it lists came with one of them, and the name
of every inclusion has a number that was given out.
-/
structure Accounted (t : Template) (parts : List Prepared) : Prop where
  listed : ∀ v, t.tree.HasVar v → ∃ p ∈ parts, p.fragment.HasVar v
  numbers : ∀ p ∈ parts, ∀ i ∈ p.inclusions, ∃ k, k < t.nextInclusion ∧ i.name = numbered k

theorem accounted_empty : Accounted empty [] where
  listed := by
    intro v ⟨x, b, hb, hv⟩
    have hroot : some b ∈ Tree.empty.slots := List.mem_of_getElem? (Tree.get?_eq_some_iff.mp hb)
    cases List.mem_singleton.mp hroot
    cases hv
  numbers := by simp

theorem Accounted.mono (h : Accounted t past) (htree : ∀ v, u.tree.HasVar v → t.tree.HasVar v)
    (hnext : t.nextInclusion ≤ u.nextInclusion) : Accounted u past where
  listed := fun v hv => h.listed v (htree v hv)
  numbers := fun p hp i hi => (h.numbers p hp i hi).imp fun _ hk =>
    ⟨Nat.lt_of_lt_of_le hk.1 hnext, hk.2⟩

theorem Accounted.writes (h : Accounted t past) {v : Text} (hv : t.tree.HasVar v)
    (hname : ∀ p ∈ past, ∀ i ∈ p.inclusions, i.name ≠ v) : ∃ p ∈ past, p.Writes v := by
  obtain ⟨p, hp, hlists⟩ := h.listed v hv
  exact ⟨p, hp, hlists, hname p hp⟩

theorem Accounted.givenOut (h : Accounted t past)
    (hname : ∀ k, t.tree.HasVar (numbered k) → ∃ p ∈ past, ∃ i ∈ p.inclusions,
      i.name = numbered k) : t.GivenOut := by
  intro x b hb k hk
  obtain ⟨p, hp, i, hi, hik⟩ := hname k ⟨x, b, hb, hk⟩
  obtain ⟨j, hj, hij⟩ := h.numbers p hp i hi
  rwa [Inclusion.numbered_inj (hik.symm.trans hij)]

theorem hasVar_attach (d : Dialect) {f : Fragment} (target : Target) {v : Text}
    (h : (t.attach d f target).2.tree.HasVar v) : t.tree.HasVar v ∨ f.HasVar v := by
  match target with
  | .under p placeholder => exact (TreeEdit.graftUnder d p placeholder f).hasVar_apply h
  | .over id keepOutput =>
    have hplanted : ((t.tree.prune id).graftOver id f).HasVar v := h
    rcases (TreeEdit.graftOver id f).hasVar_apply hplanted with hpruned | hf
    · rcases (TreeEdit.prune id).hasVar_apply hpruned with hold | ⟨b, hb, -⟩
      · exact .inl hold
      · cases hb
    · exact .inr hf

theorem Accounted.attach (h : Accounted t past) (d : Dialect) (p : Prepared) (target : Target)
    (hp : ∀ i ∈ p.inclusions, ∃ k, k < t.nextInclusion ∧ i.name = numbered k) :
    Accounted (t.attach d p.fragment target).2 (past ++ [p]) where
  listed := by
    intro v hv
    rcases hasVar_attach d target hv with hold | hnew
    · obtain ⟨q, hq, hlists⟩ := h.listed v hold
      exact ⟨q, List.mem_append_left _ hq, hlists⟩
    · exact ⟨p, by simp, hnew⟩
  numbers := by
    have hnext : (t.attach d p.fragment target).2.nextInclusion = t.nextInclusion := by
      cases target <;> rfl
    intro q hq i hi
    rw [hnext]
    rcases List.mem_append.mp hq with hq | hq
    · exact h.numbers q hq i hi
    · exact hp i (List.mem_singleton.mp hq ▸ hi)

theorem Accounted.attachSource (h : Accounted t past) (top source : Text) (target : Target) :
    Accounted (t.attachSource e top source target).2
      (past ++ sourceParts e t.tree top source target.replaced) := by
  rw [Template.attachSource, sourceParts]
  generalize Fragment.compile e.dialect t.tree top source target.replaced = r
  obtain ⟨r, calls⟩ := r
  have hcalls : Accounted (t.withCalls calls) past := h.mono (fun _ hv => hv) (Nat.le_refl _)
  cases r with
  | error fault => simpa using hcalls
  | ok f => exact hcalls.attach e.dialect ⟨f, [], true⟩ target (by simp)

def Attaches (load : Text → Text → Target → Template → Files → Loaded)
    (parts : Text → Text → Target → Template → Files → List Prepared) : Prop :=
  ∀ file top p placeholder t fs past, t.tree.Sound → t.tree.Live p → Accounted t past →
    Accounted (load file top (.under p placeholder) t fs).2.1
      (past ++ parts file top (.under p placeholder) t fs)

theorem Accounted.pull (hl : Attaches loader parts) (ht : t.tree.Sound) (h : Accounted t past)
    {i : Inclusion} {p : BlockId} (hown : t.tree.owner i.name = .ok p) (fs : Files) :
    Accounted (Template.pull d loader i t fs).2.1
      (past ++ parts i.path i.name (.under p i.name) t fs) := by
  obtain ⟨b, hb, -⟩ := Tree.live_of_owner ht.tree hown
  have hloaded := hl i.path i.name p i.name t fs past ht ⟨b, hb⟩ h
  rcases pull_cases d loader i t fs with ⟨fault, hnone, -⟩ | ⟨q, r, hq, rfl, -, hr⟩
  · rw [hown] at hnone
    cases hnone
  · rw [hown, Except.ok.injEq] at hq
    subst hq
    rcases hr with hsame | ⟨-, id, -, hdissolved⟩
    · rw [hsame]
      exact hloaded
    · rw [hdissolved]
      exact hloaded.mono (fun v hv => Tree.hasVar_dissolve id _ hv) (Nat.le_refl _)

theorem Accounted.pullAll (hl : Attaches loader parts) (hinc : IncludesFiles loader)
    (is : List Inclusion) (unsaved : Option Fault) (ht : t.tree.Sound) (h : Accounted t past)
    (fs : Files) : Accounted (Template.pullAll d loader is unsaved t fs).2.1
      (past ++ pullParts d loader parts is t fs) := by
  induction is generalizing t unsaved fs past with
  | nil => cases unsaved <;> simpa [Template.pullAll, pullParts] using h
  | cons i is ih =>
    have hcarried := carried_pull (d := d) hinc ht i fs
    rw [pullParts]
    cases hown : t.tree.owner i.name with
    | error fault =>
      have hpull : Template.pull d loader i t fs = (.error fault, t, fs) := by
        rw [Template.pull, hown]
      rw [pullAll_of_fault hpull rfl (not_isCacheWrite_of_owner hown)]
      simpa using h
    | ok p =>
      have hpulled := h.pull (d := d) hl ht hown fs
      dsimp only
      rw [← List.append_assoc]
      rcases settled_cases (Template.pull d loader i t fs).1 with hs | ⟨fault, hf, hw⟩
      · obtain ⟨unsaved', -, hrest, -⟩ := pullAll_of_settled is unsaved rfl hs
        rw [hrest, hs]
        exact ih unsaved' hcarried.sound hpulled _
      · rw [pullAll_of_fault rfl hf hw, settled_eq_error_iff.mpr ⟨hf, hw⟩]
        simpa using hpulled

theorem accounted_load (e : Engine) (allowed : Nat) (file : Text) (target : Target)
    (ht : t.tree.Sound) (hadmits : t.Admits top target) (h : Accounted t past) (fs : Files) :
    Accounted (load e allowed file top target t fs).2.1
      (past ++ loadParts e allowed file top target t fs) := by
  induction allowed generalizing file top target t fs past with
  | zero => simpa [load, loadParts] using h
  | succ allowed ih =>
    have hprep := prepares (e := e) ht fs file top target.replaced
    have hnumbers := numbers_prepare (e := e) t fs file top target.replaced
    have hsound : ∀ p u, t.prepare e fs file top target.replaced = (.ok p, u) →
        (u.attach e.dialect p.fragment target).2.tree.Sound := fun p u => sound_prepared ht hadmits
    rw [load_succ, loadParts]
    generalize t.prepare e fs file top target.replaced = r at hprep hnumbers hsound
    obtain ⟨r, u⟩ := r
    have hu : Accounted u past := by
      refine h.mono (fun v hv => ?_) hnumbers.grown
      rw [hprep.tree] at hv
      exact hv
    cases r with
    | error fault => simpa using hu
    | ok p =>
      have hattached := hu.attach e.dialect p target fun i hi =>
        (hnumbers.fresh p rfl i hi).imp fun _ hk => hk.2
      dsimp only
      rw [template_finishLoad, List.append_cons]
      exact hattached.pullAll (d := e.dialect)
        (fun file top p placeholder t fs past hs hp h => ih file (.under p placeholder) hs hp h fs)
        (includes_load e allowed) p.inclusions none (hsound p u rfl) fs

end Template

open Template

def Operation.parts (e : Engine) (s : Session) (past : List Prepared) :
    Operation → List Prepared
  | .compile source | .setTemplate source =>
    match sourceParts e .empty rootName source (some rootId) with
    | [] => past
    | new => new
  | .loadFile file =>
    let t := s.template.emptied
    match settled (loadTop e file rootName (.over rootId false) t s.files).1 with
    | .error _ => past
    | .ok () => loadParts e (e.maxDepth + 1) file rootName (.over rootId false) t s.files
  | .addBlock placeholder block source =>
    match s.template.placeFor placeholder block with
    | .error _ => past
    | .ok _ => past ++ sourceParts e s.template.tree block source none
  | .addBlockFile placeholder block file =>
    match s.template.placeFor placeholder block with
    | .error _ => past
    | .ok p =>
      past ++ loadParts e (e.maxDepth + 1) file block (.under p placeholder) s.template s.files
  | .replaceBlock block source _ =>
    match s.template.tree.lookup block with
    | .error _ => past
    | .ok id => past ++ sourceParts e s.template.tree block source (some id)
  | .replaceBlockFile block file keepOutput =>
    match s.template.tree.lookup block with
    | .error _ => past
    | .ok id =>
      past ++ loadParts e (e.maxDepth + 1) file block (.over id keepOutput) s.template s.files
  | _ => past

namespace Session

/-- What a template was put together from after operations, if it was from `past` until then. -/
def parts (e : Engine) : Session → (past : List Prepared) → List Operation → List Prepared
  | _, past, [] => past
  | s, past, op :: ops => parts e (s.apply e op) (op.parts e s past) ops

/--
After these operations the template has a variable that an author wrote: it lists the variable, and
no inclusion was given that name.
-/
def Authored (e : Engine) (s : Session) (ops : List Operation) (v : Text) : Prop :=
  (s.run e ops).template.tree.HasVar v ∧ ∀ p ∈ s.parts e [] ops, ∀ i ∈ p.inclusions, i.name ≠ v

variable {e : Engine} {s : Session} {past : List Prepared}

theorem accounted_setTemplate (h : Accounted s.template past) (source : Text) :
    Accounted (s.template.setTemplate e source).2 ((Operation.setTemplate source).parts e s past) := by
  rw [Operation.parts, sourceParts, Template.setTemplate]
  generalize Fragment.compile e.dialect .empty rootName source (some rootId) = r
  obtain ⟨r, calls⟩ := r
  cases r with
  | error fault => exact h
  | ok f =>
    refine ⟨fun v hv => ⟨⟨f, [], true⟩, by simp, ?_⟩, by simp⟩
    rcases (TreeEdit.graftOver rootId f).hasVar_apply hv with hold | hf
    · obtain ⟨p, hp, -⟩ := accounted_empty.listed v hold
      cases hp
    · exact hf

theorem accounted_compile (h : Accounted s.template past) (source : Text) :
    Accounted (s.apply e (.compile source)).template ((Operation.compile source).parts e s past) := by
  have hset := accounted_setTemplate (e := e) (s := ⟨.empty, s.files, s.log⟩) accounted_empty source
  rw [Operation.parts, sourceParts, Template.setTemplate] at hset
  rw [apply, Template.compile, Operation.parts, sourceParts, Template.setTemplate]
  generalize Fragment.compile e.dialect .empty rootName source (some rootId) = r at hset
  obtain ⟨r, calls⟩ := r
  cases r with
  | error fault => exact h
  | ok f => exact hset

theorem accounted_loadFile (h : Accounted s.template past) (file : Text) :
    Accounted (s.template.loadFile e file s.files).2.1
      ((Operation.loadFile file).parts e s past) := by
  have hroot : s.template.emptied.Admits rootName (.over rootId false) :=
    ⟨{ name := rootName, content := [] }, rfl, rfl⟩
  have hloaded : Accounted
      (loadTop e file rootName (.over rootId false) s.template.emptied s.files).2.1
      (loadParts e (e.maxDepth + 1) file rootName (.over rootId false) s.template.emptied s.files) :=
    accounted_load e (e.maxDepth + 1) file (.over rootId false) Tree.sound_empty hroot
      (accounted_empty.mono (fun _ hv => hv) (Nat.le_refl _)) s.files
  rw [Operation.parts, loadFile]
  rw [emptied] at hloaded ⊢
  generalize loadTop e file rootName (.over rootId false) _ s.files = r at hloaded
  obtain ⟨r, u, fs⟩ := r
  have hnew : Accounted ({ u with state := s.template.state, current := rootId } : Template).renew _ :=
    hloaded.mono (fun _ hv => hv) (Nat.le_refl _)
  cases r with
  | ok x => exact hnew
  | error fault =>
    cases hw : fault.isCacheWrite with
    | true => simpa [settled, hw] using hnew
    | false => simpa [settled, hw] using h

theorem accounted_apply (hs : s.template.Sound) (h : Accounted s.template past) (op : Operation) :
    Accounted (s.apply e op).template (op.parts e s past) := by
  have hsame : op.bringsBlocks = false → Accounted (s.apply e op).template past := fun hop =>
    have hu := unedited_apply e s hop
    h.mono (fun v hv => hu.tree ▸ hv) (Nat.le_of_eq hu.nextInclusion.symm)
  -- Only what brings source or a file brings parts; all other operations leave the blocks alone.
  cases op with
  | compile source => exact accounted_compile h source
  | setTemplate source => exact accounted_setTemplate h source
  | loadFile file => exact accounted_loadFile h file
  | addBlock placeholder block source =>
    rw [apply, Operation.parts, addBlock]
    cases s.template.placeFor placeholder block with
    | error fault => exact h
    | ok p => exact h.attachSource block source (.under p placeholder)
  | addBlockFile placeholder block file =>
    rw [apply, Operation.parts, addBlockFile]
    cases hp : s.template.placeFor placeholder block with
    | error fault => exact h
    | ok p =>
      exact accounted_load e _ file (.under p placeholder) hs.tree (live_of_placeFor hs.tree hp) h
        s.files
  | replaceBlock block source keepOutput =>
    rw [apply, Operation.parts, replaceBlock]
    cases s.template.tree.lookup block with
    | error fault => exact h
    | ok id => exact h.attachSource block source (.over id keepOutput)
  | replaceBlockFile block file keepOutput =>
    rw [apply, Operation.parts, replaceBlockFile]
    cases hid : s.template.tree.lookup block with
    | error fault => exact h
    | ok id =>
      exact accounted_load e _ file (.over id keepOutput) hs.tree (get?_of_lookup hid) h s.files
  | _ => exact hsame rfl

/-- At any time the template is accounted for by what it was put together from. -/
theorem accounted_run (hs : s.template.Sound) (h : Accounted s.template past)
    (ops : List Operation) : Accounted (s.run e ops).template (s.parts e past ops) := by
  induction ops generalizing s past with
  | nil => exact h
  | cons op ops ih => exact ih (sound_apply e hs op) (accounted_apply hs h op)

theorem Authored.writes {fs : Files} {ops : List Operation} {v : Text}
    (h : Authored e (start fs) ops v) : ∃ p ∈ (start fs).parts e [] ops, p.Writes v :=
  (accounted_run (s := start fs) sound_empty accounted_empty ops).writes h.1 h.2

theorem givenOut_run {fs : Files} {ops : List Operation}
    (h : ∀ k, ¬ Authored e (start fs) ops (numbered k)) :
    ((start fs).run e ops).template.GivenOut := by
  refine (accounted_run (s := start fs) sound_empty accounted_empty ops).givenOut fun k hk => ?_
  by_contra hnone
  push Not at hnone
  exact h k ⟨hk, hnone⟩

/--
Where no author names a variable like an inclusion, adding or replacing a block leaves all other blocks
what they are, those aside that go with the block replaced. The block that is rendered by default is
the root if it went with them.
-/
theorem edits_confined (e : Engine) (fs files : Files) (ops : List Operation) (edit : BlockEdit)
    (h : ∀ k, ¬ Authored e (start fs) ops (numbered k)) :
    Confined ((start fs).run e ops).template (edit.target ((start fs).run e ops).template)
      (edit.run e ((start fs).run e ops).template files) :=
  edit.confined_run (sound_run e Template.sound_empty (s := start fs) ops).tree (givenOut_run h) e
    files

end Session

end BlockTemplate
