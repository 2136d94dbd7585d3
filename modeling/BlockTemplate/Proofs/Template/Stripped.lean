import BlockTemplate.Proofs.Tag.Grammar
import BlockTemplate.Proofs.Template.Session

/-!
# Files without inclusions

The comments of a file are dropped before its inclusions are taken out, and what is left is compiled,
which drops comments once more. So a file without inclusions is loaded as what its text, rid of its
comments, is set as. Where the text around a comment joins to a new one, that is not the template of
the text itself.
-/

namespace BlockTemplate

namespace Inclusion

def Absent (source : Text) : Prop :=
  ∀ raw path, Piece.mark raw (.includes path) ∉ Tag.pieces source

theorem mark_of_none (d : Dialect) (next : Nat) {ps : List (Piece Tag)}
    (h : ∀ raw path, Piece.mark raw (.includes path) ∉ ps) :
    mark d next ps = (ps.flatMap Piece.raw, []) := by
  induction ps with
  | nil => rfl
  | cons p ps ih =>
    have hrest := ih fun raw path hm => h raw path (List.mem_cons_of_mem _ hm)
    have hp : ∀ raw path, p ≠ .mark raw (.includes path) := fun raw path he =>
      h raw path (he ▸ List.mem_cons_self)
    rw [mark, hrest, List.flatMap_cons]
    exact fun raw path he => hp raw path he

theorem absent_of_mark {d : Dialect} {next : Nat} {ps : List (Piece Tag)}
    (h : (mark d next ps).2 = []) : ∀ raw path, Piece.mark raw (.includes path) ∉ ps := by
  fun_induction mark d next ps with
  | case1 next => exact fun raw path => List.not_mem_nil
  | case2 next raw path rest text inclusions hmark ih => cases h
  | case3 next p rest hnot text inclusions hmark ih =>
    rw [hmark] at ih
    intro raw path hm
    rcases List.mem_cons.mp hm with rfl | hm
    · exact hnot raw path rfl
    · exact ih h raw path hm

theorem extract_of_absent (d : Dialect) (next : Nat) {source : Text}
    (h : Absent (Tag.stripComments source)) :
    extract d next source = (Tag.stripComments source, []) := by
  have hraw : (Tag.pieces (Tag.stripComments source)).flatMap Piece.raw = Tag.stripComments source :=
    Text.flatMap_raw_pieces (by decide) Tag.leaves_read _
  rw [extract, mark_of_none d next h, hraw]

end Inclusion

namespace CallTable

variable {t : CallTable}

theorem keepOnly_of_used {used : List CallId} (h : ∀ id c, t.get? id = some c → id ∈ used) :
    t.keepOnly used = t := by
  have hslots : t.slots.mapIdx (fun id c => if used.contains id then c else none) = t.slots := by
    refine List.ext_getElem? fun id => ?_
    rw [List.getElem?_mapIdx]
    cases hid : t.slots[id]? with
    | none => rfl
    | some c =>
      cases c with
      | none => simp
      | some c =>
        have hused := h id c (get?_eq_some_iff.mpr hid)
        simp [hused]
  rw [keepOnly, hslots]

end CallTable

namespace Listing

def Notes (table : CallTable) (l : Listing) : Prop :=
  ∀ id c, l.table.get? id = some c → table.get? id = some c ∨ id ∈ l.calls

variable {table : CallTable} {l : Listing}

theorem Notes.addVariable (h : Notes table l) (name : Text) : Notes table (l.addVariable name) := h

theorem Notes.addCall (h : Notes table l) (c : Call) : Notes table (l.addCall c).2 := by
  intro id call hid
  have hmem : id ∈ (l.addCall c).2.calls ↔ id ∈ l.calls ∨ id = (l.table.intern c).1 := mem_addNew
  rw [hmem]
  cases hf : l.table.find? c with
  | some i =>
    rw [Listing.addCall, CallTable.intern_of_found hf] at hid
    exact (h id call hid).imp_right .inl
  | none =>
    have hget := CallTable.get?_intern_of_new hf id
    rw [CallTable.intern_fst_of_new hf]
    by_cases hnew : id = l.table.fresh
    · exact .inr (.inr hnew)
    · rw [if_neg hnew] at hget
      exact (h id call (hget ▸ hid)).imp_right .inl

theorem Notes.takePlaceholders (h : Notes table l) (d : Dialect) (children : List Text)
    (ps : List (Piece Placeholder)) : Notes table (takePlaceholders d children ps l).2 := by
  induction ps generalizing l with
  | nil => exact h
  | cons p ps ih =>
    cases p with
    | char c => exact ih h
    | mark raw p =>
      have hv : Notes table (if reserved children p.name then l else l.addVariable p.name) := by
        split
        · exact h
        · exact h.addVariable p.name
      rw [Listing.takePlaceholders]
      cases p.filter with
      | none => exact ih hv
      | some f => exact ih (hv.addCall _)

theorem Notes.takeCalls (h : Notes table l) (d : Dialect)
    (ps : List (Piece (Except Arguments.Failure Call))) : Notes table (takeCalls d ps l).2 := by
  induction ps generalizing l with
  | nil => exact h
  | cons p ps ih =>
    cases p with
    | char c => exact ih h
    | mark raw r =>
      cases r with
      | ok c => exact ih (h.addCall c)
      | error e => exact h

theorem notes_scan {d : Dialect} {children : List Text} {b b' : Block}
    (h : (scan d children table b).1 = .ok b') {id : CallId} {c : Call}
    (hid : (scan d children table b).2.get? id = some c) :
    table.get? id = some c ∨ id ∈ b'.calls := by
  have hstart : Notes table { table := table } := fun _ _ hc => .inl hc
  have hnotes := (hstart.takePlaceholders d children (d.placeholders b.content)).takeCalls d
    (Text.pieces d.callMark Call.read
      (takePlaceholders d children (d.placeholders b.content) { table := table }).1)
  rw [scan] at h hid
  dsimp only at h hid
  split at h
  · cases h
    rename_i hr
    rw [hr] at hid
    exact hnotes id c hid
  · cases h

end Listing

namespace Fragment

theorem notes_scanAll {d : Dialect} {whole : Fragment} {bs f : List Block} {table : CallTable}
    (h : (scanAll d whole bs table).1 = .ok f) {id : CallId} {c : Call}
    (hid : (scanAll d whole bs table).2.get? id = some c) :
    table.get? id = some c ∨ ∃ b ∈ f, id ∈ b.calls := by
  induction bs generalizing table f with
  | nil => exact .inl hid
  | cons b bs ih =>
    rw [scanAll] at h hid
    split at h
    · cases h
    · rename_i b' table' hs
      have hb : ∀ id c, table'.get? id = some c → table.get? id = some c ∨ id ∈ b'.calls := by
        intro id c hc
        refine Listing.notes_scan (congrArg Prod.fst hs) ?_
        rw [hs]
        exact hc
      rw [hs] at hid
      dsimp only at hid
      cases hr : (scanAll d whole bs table').1 with
      | error fault =>
        simp only [hr] at h
        cases h
      | ok g =>
        simp only [hr] at h
        cases h
        rcases ih hr hid with hold | ⟨x, hx, hcx⟩
        · exact (hb id c hold).imp_right fun hm => ⟨b', List.mem_cons_self, hm⟩
        · exact .inr ⟨x, List.mem_cons_of_mem _ hx, hcx⟩

theorem notes_compile {d : Dialect} {t : Tree} {top source : Text} {replaced : Option BlockId}
    {f : Fragment} {calls : CallTable} (h : compile d t top source replaced = (.ok f, calls))
    {id : CallId} {c : Call} (hid : calls.get? id = some c) :
    t.calls.get? id = some c ∨ ∃ b ∈ f, id ∈ b.calls := by
  rw [compile] at h
  split at h
  · cases h
  · split at h
    · cases h
    · exact notes_scanAll (congrArg Prod.fst h) (by rw [h]; exact hid)

end Fragment

namespace Template

variable {t : Template} {e : Engine} {fs : Files} {file text : Text}

theorem setTemplate_congr {source source' : Text}
    (h : Tag.stripComments source = Tag.stripComments source') :
    t.setTemplate e source = t.setTemplate e source' := by
  rw [setTemplate, setTemplate, Fragment.compile, Fragment.compile, h]

theorem release_graftOver {u : Tree} {f : Fragment} {id : BlockId} {leaf : Block}
    (hf : Lookup.IsTree f.look 0) (hl : u.get? id = some leaf) (hb : leaf.children = [])
    (hmade : ∀ i c, u.calls.get? i = some c → ∃ b ∈ f, i ∈ b.calls) :
    (u.graftOver id f).releaseCalls = u.graftOver id f := by
  have hplant := Tree.plant_graftOver hf hl hb
  have hcalls : (u.graftOver id f).calls = u.calls := Tree.calls_graftAt _ _ _ _
  rw [Tree.releaseCalls, CallTable.keepOnly_of_used]
  intro i c hi
  rw [hcalls] at hi
  obtain ⟨b, hb, hc⟩ := hmade i c hi
  obtain ⟨j, hj, hget⟩ := List.getElem_of_mem hb
  have hlook : f.look j = some b := List.getElem?_eq_some_iff.mpr ⟨hj, hget⟩
  exact Tree.mem_usedCalls (hplant.placed j b hlook) hc

theorem attach_empty {source : Text} {f : Fragment} {calls : CallTable}
    (h : Fragment.compile e.dialect .empty rootName source (some rootId) = (.ok f, calls)) :
    ((({ Tree.empty with calls := calls } : Tree).prune rootId).graftOver rootId f).releaseCalls =
      ({ Tree.empty with calls := calls } : Tree).graftOver rootId f := by
  have hprune : ({ Tree.empty with calls := calls } : Tree).prune rootId =
      { Tree.empty with calls := calls } := rfl
  have hready : f.Ready rootName calls := by
    have hfits := Fragment.fits_compile e.dialect .empty rootName source (some rootId)
    rw [h] at hfits
    exact hfits.ready f rfl
  have hroot : ({ Tree.empty with calls := calls } : Tree).get? rootId =
      some { name := rootName, content := [] } := rfl
  rw [hprune]
  refine release_graftOver hready.tree hroot rfl fun i c hi => ?_
  rcases Fragment.notes_compile h hi with hold | hmade
  · simp [CallTable.get?, Tree.empty, CallTable.empty] at hold
  · exact hmade

theorem loadFile_of_text (hcache : e.cacheDir = none) (hread : fs.read (e.path file) = .ok text)
    (hno : Inclusion.Absent (Tag.stripComments text)) :
    t.loadFile e file fs =
      ((t.setTemplate e (Tag.stripComments text)).1,
        (t.setTemplate e (Tag.stripComments text)).2, fs) := by
  have hsaved : e.savedSnapshot? fs file = none := by
    rw [Engine.savedSnapshot?, hcache]
    rfl
  have hextract := Inclusion.extract_of_absent e.dialect 0 hno
  rw [loadFile, loadTop, load, prepare, hsaved, setTemplate]
  simp only [prepareFile, hread, prepareText, hextract, Target.replaced]
  cases hr : Fragment.compile e.dialect .empty rootName (Tag.stripComments text) (some rootId) with
  | mk r calls =>
    cases r with
    | error fault =>
      have hfault : fault.isCacheWrite = false := by
        have hfits := Fragment.fits_compile e.dialect .empty rootName (Tag.stripComments text)
          (some rootId)
        rw [hr] at hfits
        exact hfits.fault fault rfl
      simp [hfault]
    | ok f =>
      have htree := attach_empty hr
      simp only [hcache, Option.isSome_none, Bool.and_false, Bool.false_eq_true, if_false, pullAll,
        finishLoad, attach, withCalls, htree, renew]
      rfl

/-- So it is loaded as its text is set, if what lies around a comment never makes a new one. -/
theorem loadFile_eq_setTemplate (hcache : e.cacheDir = none)
    (hread : fs.read (e.path file) = .ok text) (hno : Inclusion.Absent (Tag.stripComments text))
    (hstrip : Tag.stripComments (Tag.stripComments text) = Tag.stripComments text) :
    t.loadFile e file fs = ((t.setTemplate e text).1, (t.setTemplate e text).2, fs) := by
  rw [loadFile_of_text hcache hread hno, setTemplate_congr hstrip]

def splitComment : Text :=
  "<!-- COM<!-- COMMENT -->x<!-- /COMMENT -->MENT -->y<!-- /COMMENT -->".toList

def splitFiles : Files := Files.empty.write "page.html".toList (Text.utf8 splitComment) ⟨1, 0⟩

/-- No file is included, and the file is loaded without the comment that setting its text leaves. -/
theorem loadFile_drops_twice :
    (splitFiles.read (Engine.standard.path "page.html".toList) = .ok splitComment ∧
      Inclusion.Absent splitComment ∧ Inclusion.Absent (Tag.stripComments splitComment)) ∧
    (empty.setTemplate .standard splitComment).1 = .ok () ∧
    (empty.loadFile .standard "page.html".toList splitFiles).1 = .ok () ∧
    ((empty.setTemplate .standard splitComment).2.tree.get? rootId).map (·.content) =
      some "<!-- COMMENT -->y<!-- /COMMENT -->".toList ∧
    ((empty.loadFile .standard "page.html".toList splitFiles).2.1.tree.get? rootId).map (·.content) =
      some [] := by
  have hwhole : (Inclusion.mark .standard 0 (Tag.pieces splitComment)).2 = [] := by decide +kernel
  have hstripped : (Inclusion.extract .standard 0 splitComment).2 = [] := by decide +kernel
  refine ⟨⟨by decide +kernel, Inclusion.absent_of_mark hwhole, Inclusion.absent_of_mark hstripped⟩,
    by decide +kernel, by decide +kernel, by decide +kernel, by decide +kernel⟩

end Template

end BlockTemplate
