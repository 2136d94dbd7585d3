import BlockTemplate.Proofs.Document.Splice
import BlockTemplate.Proofs.Files.Change
import BlockTemplate.Template.Load

/-!
# Where snapshots are kept

The snapshot of a template file is kept in one directory, under the name of the file with its slashes
written as underscores. Saving it changes what is there, so it does not matter to other files, unless
they are read from that place or their snapshots are kept there.
-/

namespace BlockTemplate

namespace Engine

variable {e : Engine} {fs fs' : Files} {file : Text} {q : Place}

def keptAt? (e : Engine) (file : Text) : Option Place :=
  e.cacheDir.bind fun dir => Path.leadsTo (Path.join dir (cachedName file))

def Keeps (e : Engine) (names : List Text) (q : Place) : Prop :=
  ∃ file ∈ names, e.keptAt? file = some q

/-- No two of these files have one place for their snapshots, and none is read from such a place. -/
structure Separate (e : Engine) (names : List Text) : Prop where
  cachedName_inj : ∀ f ∈ names, ∀ g ∈ names, cachedName f = cachedName g → f = g
  apart : ∀ f ∈ names, ∀ g ∈ names, (Path.leadsTo (e.path f)).isSome →
    Path.leadsTo (e.path f) ≠ e.keptAt? g

theorem keptAt?_eq {dir : Text} (hdir : e.cacheDir = some dir) (file : Text) :
    e.keptAt? file = Path.leadsTo (Path.join dir (cachedName file)) := by
  rw [keptAt?, hdir, Option.bind_some]

theorem keeps_singleton : e.Keeps [file] q ↔ e.keptAt? file = some q := by
  simp [Keeps]

theorem Keeps.of_mem {names : List Text} (hfile : file ∈ names) (h : e.Keeps [file] q) :
    e.Keeps names q := ⟨file, hfile, keeps_singleton.mp h⟩

theorem replaceAll_slash (new t : Text) :
    Text.replaceAll ['/'] new t = t.flatMap fun c => if c = '/' then new else [c] := by
  induction t with
  | nil => rfl
  | cons c t ih =>
    rw [List.flatMap_cons, ← ih]
    by_cases hc : c = '/'
    · subst hc
      exact Page.replaceAll_self (by simp) new t
    · rw [if_neg hc]
      exact Page.replaceAll_cons (by rw [Text.expect, if_neg (Ne.symm hc)]) new

theorem plain_cachedName (file : Text) : Path.Plain (cachedName file) := by
  have hlast : (cachedName file).getLast? = some 't' := by simp [cachedName]
  refine ⟨?_, ?_, ?_, ?_⟩
  · intro h
    simp [h] at hlast
  · intro h
    simp [h] at hlast
  · intro h
    simp [h] at hlast
  · rw [cachedName, replaceAll_slash]
    intro h
    rcases List.mem_append.mp h with h | h
    · obtain ⟨c, -, hc⟩ := List.mem_flatMap.mp h
      split at hc
      · simp at hc
      · rename_i hslash
        exact hslash (List.mem_singleton.mp hc).symm
    · simp at h

theorem getLast?_of_keptAt? (h : e.keptAt? file = some q) :
    q.getLast? = some (cachedName file) := by
  obtain ⟨dir, -, hdir⟩ := Option.bind_eq_some_iff.mp h
  rcases Path.leadsTo_join_cases (plain_cachedName file) hdir with ⟨-, rfl⟩ | ⟨-, rfl⟩ <;> simp

theorem at?_of_list? {dir : Text} (hdir : e.cacheDir = some dir) (h : fs.list? dir = some [])
    (hq : e.keptAt? file = some q) : fs.at? q = none := by
  rw [Files.list?] at h
  split at h
  · cases h
  · rename_i place hl
    split at h
    · rw [Option.some.injEq, List.filterMap_eq_nil_iff] at h
      rw [keptAt?_eq hdir] at hq
      have hleads := Files.leadsTo_of_locate hl
      obtain ⟨-, hne, hplace⟩ := Path.leadsTo_eq_some_iff.mp hleads
      rcases Path.leadsTo_join_cases (plain_cachedName file) hq with ⟨hnil, -⟩ | ⟨-, rfl⟩
      · exact absurd hnil hne
      · rw [hplace]
        cases hat : fs.at? (place ++ [cachedName file]) with
        | none => rfl
        | some n =>
          have hnone := h _ (List.mem_map_of_mem (Dict.get?_eq_some_iff.mp hat))
          have hrest : place.isPrefixOf? (place ++ [cachedName file]) =
              some [cachedName file] := List.isPrefixOf?_eq_some_iff_append_eq.mpr rfl
          dsimp only at hnone
          rw [hrest] at hnone
          cases hnone
    · cases h

theorem Separate.off {names done : List Text} (h : e.Separate names) (hf : file ∈ names)
    (hsub : ∀ g ∈ done, g ∈ names) (q : Place) (hq : Path.leadsTo (e.path file) = some q) :
    ¬ e.Keeps done q := by
  intro ⟨g, hg, hkept⟩
  exact h.apart file hf g (hsub g hg) (by rw [hq]; rfl) (hq.trans hkept.symm)

theorem Separate.eq_of_keptAt? {names : List Text} (h : e.Separate names) {f g : Text}
    (hf : f ∈ names) (hg : g ∈ names) (hfq : e.keptAt? f = some q) (hgq : e.keptAt? g = some q) :
    f = g :=
  h.cachedName_inj f hf g hg
    (Option.some.inj ((getLast?_of_keptAt? hfq).symm.trans (getLast?_of_keptAt? hgq)))

theorem Separate.kept_off {names done : List Text} (h : e.Separate names) (hf : file ∈ names)
    (hsub : ∀ g ∈ done, g ∈ names) (hnew : file ∉ done) (q : Place)
    (hq : e.keptAt? file = some q) : ¬ e.Keeps done q := by
  intro ⟨g, hg, hkept⟩
  exact hnew (h.eq_of_keptAt? hf (hsub g hg) hq hkept ▸ hg)

open Files (DifferAt)

variable {places : Place → Prop}

theorem isCurrent_iff {path cached : Text} : isCurrent fs path cached = true ↔
    ∃ m, fs.modified path = some m ∧ fs.modified cached = some m := by
  rw [isCurrent]
  split
  · rename_i s c hs hc
    rw [hs, hc, beq_iff_eq]
    constructor
    · rintro rfl
      exact ⟨s, rfl, rfl⟩
    · rintro ⟨m, hm, hm'⟩
      exact Option.some.inj (hm.trans hm'.symm)
  · rename_i hnone
    simp only [Bool.false_eq_true, false_iff, not_exists, not_and]
    exact fun m hm hm' => hnone m m hm hm'

theorem isCurrent_congr (h : DifferAt places fs fs') {path cached : Text}
    (hpath : ∀ q, Path.leadsTo path = some q → ¬ places q)
    (hcached : ∀ q, Path.leadsTo cached = some q → ¬ places q) :
    isCurrent fs' path cached = isCurrent fs path cached := by
  rw [isCurrent, isCurrent, h.modified hpath, h.modified hcached]

theorem savedSnapshot?_congr (h : DifferAt places fs fs')
    (hpath : ∀ q, Path.leadsTo (e.path file) = some q → ¬ places q)
    (hkept : ∀ q, e.keptAt? file = some q → ¬ places q) :
    e.savedSnapshot? fs' file = e.savedSnapshot? fs file := by
  unfold savedSnapshot?
  cases hdir : e.cacheDir with
  | none => rfl
  | some dir =>
    have hcached : ∀ q, Path.leadsTo (Path.join dir (cachedName file)) = some q → ¬ places q :=
      fun q hq => hkept q ((keptAt?_eq hdir file).trans hq)
    have hbytes : (fs'.bytes (Path.join dir (cachedName file))).toOption =
        (fs.bytes (Path.join dir (cachedName file))).toOption := by
      rcases h.bytes hcached with hb | ⟨-, hb, hb'⟩
      · rw [hb]
      · rcases hb with hb | hb <;> rcases hb' with hb' | hb' <;> rw [hb, hb'] <;> rfl
    simp only [Option.bind_eq_bind, Option.bind_some]
    rw [isCurrent_congr h hpath hcached, hbytes]

end Engine

namespace Template

theorem saveSnapshot_eq {e : Engine} {dir : Text} (hdir : e.cacheDir = some dir) (file : Text)
    (s : Snapshot) (fs : Files) :
    (saveSnapshot e file s fs).2 =
        (fs.save dir (Engine.cachedName file) s.toBytes (fs.modified (e.path file))).2 ∧
      (saveSnapshot e file s fs).1.toBool =
        (fs.save dir (Engine.cachedName file) s.toBytes (fs.modified (e.path file))).1 := by
  rw [saveSnapshot, hdir]
  dsimp only
  generalize fs.save dir _ _ _ = r
  obtain ⟨done, fs'⟩ := r
  cases done <;> exact ⟨rfl, rfl⟩

theorem differAt_saveSnapshot (e : Engine) (file : Text) (s : Snapshot) (fs : Files) :
    Files.DifferAt (e.Keeps [file]) fs (saveSnapshot e file s fs).2 := by
  cases hdir : e.cacheDir with
  | none =>
    rw [saveSnapshot, hdir]
    exact .refl fs
  | some dir =>
    rw [(saveSnapshot_eq hdir file s fs).1]
    refine (fs.differAt_save dir (Engine.plain_cachedName file) _ _).mono fun q hq => ?_
    rw [Engine.keeps_singleton, Engine.keptAt?_eq hdir]
    exact hq

theorem at?_saveSnapshot (e : Engine) (file : Text) (s : Snapshot) (fs : Files) (q : Place) :
    (saveSnapshot e file s fs).2.at? q = fs.at? q ∨ e.keptAt? file = some q ∧
      ∃ stamp, (saveSnapshot e file s fs).2.at? q = some ⟨.file s.toBytes, stamp⟩ ∧
        (stamp = fs.modified (e.path file) ∨ ∃ now, .unstamped now ∈ fs.fates ∧
          stamp = some now) := by
  cases hdir : e.cacheDir with
  | none =>
    rw [saveSnapshot, hdir]
    exact .inl rfl
  | some dir =>
    rw [(saveSnapshot_eq hdir file s fs).1]
    rcases fs.save_cases dir (Engine.cachedName file) s.toBytes (fs.modified (e.path file)) with
      ⟨-, hsame⟩ | ⟨place, stamp, hl, htarget, hput, hstamp⟩
    · exact .inl (Files.at?_congr hsame q)
    · rw [Files.at?_congr hput, Files.at?_put]
      split
      · rename_i hq
        subst hq
        have hclean := (Files.takes_of_target? hl htarget).clean
        refine .inr ⟨?_, stamp, rfl, ?_⟩
        · rw [Engine.keptAt?_eq hdir]
          exact Path.leadsTo_join (Engine.plain_cachedName file) hclean (Files.leadsTo_of_locate hl)
        · exact hstamp.imp (fun h => h.2) fun ⟨now, hnow, hsome, _⟩ => ⟨now, hnow, hsome⟩
      · exact .inl rfl

theorem fates_saveSnapshot (e : Engine) (file : Text) (s : Snapshot) (fs : Files) {fate : Fate}
    (h : fate ∈ (saveSnapshot e file s fs).2.fates) : fate ∈ fs.fates := by
  cases hdir : e.cacheDir with
  | none =>
    rw [saveSnapshot, hdir] at h
    exact h
  | some dir =>
    rw [(saveSnapshot_eq hdir file s fs).1, Files.fates_save] at h
    exact List.mem_of_mem_tail h

theorem node?_unsaved {e : Engine} {file : Text} {s : Snapshot} {fs : Files}
    (hstamped : ∀ now, .unstamped now ∉ fs.fates)
    (h : (saveSnapshot e file s fs).1.toBool = false) (path : Text) :
    (saveSnapshot e file s fs).2.node? path = fs.node? path := by
  cases hdir : e.cacheDir with
  | none =>
    rw [saveSnapshot, hdir] at h
    cases h
  | some dir =>
    obtain ⟨hfiles, hdone⟩ := saveSnapshot_eq hdir file s fs
    rw [hdone] at h
    rw [hfiles]
    rcases fs.save_cases dir (Engine.cachedName file) s.toBytes (fs.modified (e.path file)) with
      ⟨-, hsame⟩ | ⟨place, stamp, -, -, -, ⟨hyes, -⟩ | ⟨now, hnow, -⟩⟩
    · have hsame : Files.DifferAt (fun _ => False) fs _ := .of_nodes hsame
      exact hsame.node? fun _ _ => id
    · rw [hyes] at h
      cases h
    · exact absurd hnow (hstamped now)

theorem modified_saveSnapshot {e : Engine} {dir file : Text} {s : Snapshot} {fs : Files} {m : Stamp}
    (hdir : e.cacheDir = some dir) (hm : fs.modified (e.path file) = some m)
    (h : (saveSnapshot e file s fs).1.toBool = true) :
    (saveSnapshot e file s fs).2.modified (Path.join dir (Engine.cachedName file)) = some m := by
  obtain ⟨hfiles, hdone⟩ := saveSnapshot_eq hdir file s fs
  rw [hdone] at h
  obtain ⟨stamp, hnode, hstamp⟩ := Files.node?_save (Engine.plain_cachedName file) h
  rw [hfiles, Files.modified, hnode]
  exact hstamp m hm

end Template

def Engine.caching : Engine := { Engine.standard with cacheDir := some "cache".toList }

def Files.page : Files :=
  ((Files.empty.makeDirectory "cache".toList).write "part.html".toList (Text.utf8 "b".toList)
    ⟨1, 0⟩).write "page.html".toList (Text.utf8 "a<!-- INCLUDE part.html -->c".toList) ⟨1, 0⟩

def Files.pageNames : List Text := ["page.html".toList, "part.html".toList]

theorem Engine.separate_page : Engine.caching.Separate Files.pageNames :=
  ⟨by decide +kernel, by decide +kernel⟩

end BlockTemplate
