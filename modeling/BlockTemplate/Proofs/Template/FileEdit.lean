import BlockTemplate.Proofs.Template.Atomic

/-!
# Edits by files that fail

A file that is added or put over a block is attached before its inclusions are loaded, and is not
taken away again if one of them cannot be. An edit by a file without inclusions is all or nothing.
-/

namespace BlockTemplate

namespace Template

variable {t : Template} {e : Engine}

theorem Prepares.unchanged {top : Text} {replaced : Option BlockId}
    {r : Except Fault Prepared × Template} (h : Prepares t top replaced r) (ht : t.tree.Sound) :
    t.Unchanged r.2 :=
  unchanged_of_calls ht h.tree h.grown h.carried.state h.carried.current

theorem finishLoad_ok {file : Text} {s : Option Snapshot} {fs : Files} {fault : Fault}
    (hf : (finishLoad e file s (.ok (), t, fs)).1 = .error fault) : fault.isCacheWrite = true := by
  cases s with
  | none => cases hf
  | some s =>
    rw [finishLoad] at hf
    dsimp only at hf
    rw [saveSnapshot] at hf
    split at hf
    · cases hf
    · dsimp only at hf
      split at hf
      · cases hf
      · cases hf
        rfl

/-- A load that fails has changed nothing, or it is the load of an inclusion that failed. -/
theorem load_fault (h : t.tree.Sound) {allowed : Nat} {file top : Text} {target : Target}
    {fs : Files} {fault : Fault}
    (hf : (load e (allowed + 1) file top target t fs).1 = .error fault)
    (hw : fault.isCacheWrite = false) :
    t.Unchanged (load e (allowed + 1) file top target t fs).2.1 ∨
      ∃ p, (t.prepare e fs file top target.replaced).1 = .ok p ∧ p.inclusions ≠ [] := by
  have hprep := prepares (e := e) h fs file top target.replaced
  rw [load] at hf ⊢
  generalize t.prepare e fs file top target.replaced = r at hf hprep ⊢
  obtain ⟨r, u⟩ := r
  cases r with
  | error why => exact .inl (hprep.unchanged h)
  | ok p =>
    refine .inr ⟨p, rfl, fun hnone => ?_⟩
    dsimp only at hf
    rw [hnone, pullAll] at hf
    rw [finishLoad_ok hf] at hw
    cases hw

theorem addBlockFile_fault (h : t.tree.Sound) {placeholder block file : Text} {fs : Files}
    {fault : Fault} (hf : (t.addBlockFile e placeholder block file fs).1 = .error fault)
    (hw : fault.isCacheWrite = false) :
    t.Unchanged (t.addBlockFile e placeholder block file fs).2.1 ∨
      ∃ p, (t.prepare e fs file block none).1 = .ok p ∧ p.inclusions ≠ [] := by
  rw [addBlockFile] at hf ⊢
  split at hf
  · exact .inl (unchanged_refl h)
  · exact load_fault h hf hw

theorem replaceBlockFile_fault (h : t.tree.Sound) {block file : Text} {keepOutput : Bool}
    {fs : Files} {fault : Fault}
    (hf : (t.replaceBlockFile e block file keepOutput fs).1 = .error fault)
    (hw : fault.isCacheWrite = false) :
    t.Unchanged (t.replaceBlockFile e block file keepOutput fs).2.1 ∨
      ∃ id p, t.tree.lookup block = .ok id ∧
        (t.prepare e fs file block (some id)).1 = .ok p ∧ p.inclusions ≠ [] := by
  rw [replaceBlockFile] at hf ⊢
  split at hf
  · exact .inl (unchanged_refl h)
  · rename_i id hid
    rcases load_fault h hf hw with hsame | ⟨p, hp, hne⟩
    · exact .inl hsame
    · exact .inr ⟨id, p, hid, hp, hne⟩

theorem carried_addBlockFile (h : t.tree.Sound) (placeholder block file : Text) (fs : Files) :
    Carried t (t.addBlockFile e placeholder block file fs).2.1 := by
  rw [addBlockFile]
  split
  · exact carried_refl h
  · rename_i p hp
    have hlive := live_of_placeFor h hp
    exact (includes_load e (e.maxDepth + 1) file block p placeholder t fs h hlive).carried

end Template

namespace Session

/--
An inclusion that cannot be loaded leaves the block that was added for the file, and leaves the file
over a block, whose descendants are gone.
-/
theorem failed_inclusion_leaves_file :
    let t := ((start brokenFiles).run .standard busySteps).template
    ((t.addBlockFile .standard "slot".toList ['c'] "part.html".toList brokenFiles).1 =
        .error (.unreadable "none.html".toList .notFound) ∧
      t.blockExists ['c'] = false ∧
      (t.addBlockFile .standard "slot".toList ['c'] "part.html".toList
        brokenFiles).2.1.blockExists ['c'] = true) ∧
    ((t.replaceBlockFile .standard ['a'] "part.html".toList false brokenFiles).1 =
        .error (.unreadable "none.html".toList .notFound) ∧
      t.blockExists ['b'] = true ∧
      (t.replaceBlockFile .standard ['a'] "part.html".toList false
        brokenFiles).2.1.blockExists ['b'] = false) := by decide +kernel

end Session

end BlockTemplate
