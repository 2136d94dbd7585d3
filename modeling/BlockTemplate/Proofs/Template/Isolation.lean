import BlockTemplate.Proofs.Template.Unsaved

/-!
# Loads of different files

A load makes no difference to later loads of other files whose snapshots are kept elsewhere. But
files whose names differ only in slashes and doubled underscores have one place for their snapshots,
and if both have the same time, the snapshot of one is restored for the other.
-/

namespace BlockTemplate

namespace Engine

variable {e : Engine} {fs : Files} {f g : Text}

theorem cachedName_inj (hf : '_' ∉ f) (hg : '_' ∉ g) (h : cachedName f = cachedName g) : f = g := by
  rw [cachedName, cachedName, List.append_cancel_right_eq, replaceAll_slash, replaceAll_slash] at h
  induction f generalizing g with
  | nil =>
    cases g with
    | nil => rfl
    | cons c g =>
      rw [List.flatMap_nil, List.flatMap_cons] at h
      split at h <;> cases h
  | cons c f ih =>
    cases g with
    | nil =>
      rw [List.flatMap_nil, List.flatMap_cons] at h
      split at h <;> cases h
    | cons c' g =>
      rw [List.mem_cons, not_or] at hf hg
      rw [List.flatMap_cons, List.flatMap_cons] at h
      by_cases hc : c = '/'
      · by_cases hc' : c' = '/'
        · rw [if_pos hc, if_pos hc', List.append_cancel_left_eq] at h
          rw [hc, hc', ih hf.2 hg.2 h]
        · rw [if_pos hc, if_neg hc'] at h
          exact absurd (List.cons.inj h).1 hg.1
      · by_cases hc' : c' = '/'
        · rw [if_neg hc, if_pos hc'] at h
          exact absurd (List.cons.inj h).1.symm hf.1
        · rw [if_neg hc, if_neg hc'] at h
          obtain ⟨hhead, htail⟩ := List.cons.inj h
          rw [hhead, ih hf.2 hg.2 htail]

theorem savedSnapshot?_shared (hname : cachedName f = cachedName g)
    (htime : fs.modified (e.path f) = fs.modified (e.path g)) :
    e.savedSnapshot? fs f = e.savedSnapshot? fs g := by
  have hcur : ∀ cached, isCurrent fs (e.path f) cached = isCurrent fs (e.path g) cached := by
    intro cached
    rw [isCurrent, isCurrent, htime]
  unfold savedSnapshot?
  simp only [hname, hcur]

end Engine

namespace Template

theorem keptBySteps_differAt (e : Engine) (names : List Text) :
    KeptBySteps e (fun f _ => f ∈ names) fun _ fs fs' =>
      Files.DifferAt (e.Keeps names) fs fs' where
  none := fun fs => .refl fs
  opens := fun _ fs => .refl fs
  append := fun _ _ _ _ _ h h' => h.trans h'
  saves := by
    intro file text s l fs fs' hfile _ _ _ _
    exact (differAt_saveSnapshot e file s fs').mono fun q => .of_mem hfile

end Template

namespace FileEdit

open Template

variable {e : Engine}

/--
A load gives the same template after a load of other files, if all these files are different and have
different places for their snapshots.
-/
theorem run_after_other {t : Template} (ht : t.tree.Sound) (u : Template) (other edit : FileEdit)
    (fs : Files)
    (hnodup : (FileStep.opened (other.steps e t fs) ++ FileStep.opened (edit.steps e u fs)).Nodup)
    (hsep : e.Separate
      (FileStep.opened (other.steps e t fs) ++ FileStep.opened (edit.steps e u fs))) :
    (edit.run e u (other.run e t fs).2.2).2.1 = (edit.run e u fs).2.1 ∧
      (settled (edit.run e u (other.run e t fs).2.2).1 = .ok () ↔
        settled (edit.run e u fs).1 = .ok ()) := by
  have hother := steps_run (keptBySteps_differAt e (FileStep.opened (other.steps e t fs))) ht fs
    other fun f _ hf => FileStep.mem_opened hf
  have hboth := together_run hother u edit hnodup hsep
  exact ⟨hboth.template, hboth.result.ok_iff.symm⟩

end FileEdit

namespace Template

def twinFiles : Files :=
  ((Files.empty.makeDirectory "cache".toList).write "a/b.html".toList (Text.utf8 "one".toList)
    ⟨1, 0⟩).write "a__b.html".toList (Text.utf8 "two".toList) ⟨1, 0⟩

def showFile (fs : Files) (file : Text) : Except Fault Text :=
  ((empty.loadFile .caching file fs).2.1.output .caching rootName []).1

/-- A file is loaded after its twin, and the text of the twin comes out. -/
theorem twin_restored :
    twinFiles.read "a/b.html".toList = .ok "one".toList ∧
    twinFiles.read "a__b.html".toList = .ok "two".toList ∧
    (empty.loadFile .caching "a/b.html".toList twinFiles).1 = .ok () ∧
    showFile twinFiles "a__b.html".toList = .ok "two".toList ∧
    showFile (empty.loadFile .caching "a/b.html".toList twinFiles).2.2 "a__b.html".toList =
      .ok "one".toList := by decide +kernel

end Template

end BlockTemplate
