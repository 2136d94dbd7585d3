import BlockTemplate.Fragment.Compile
import BlockTemplate.Proofs.Call.Table
import BlockTemplate.Proofs.Fragment.Extract
import BlockTemplate.Proofs.Tree.Slots

/-!
# Compiled fragments

A fragment that was compiled is a tree whose top block has the name asked for, every call of its
blocks has its number in the table, and its names are free in the tree that it was compiled for.
-/

namespace BlockTemplate

open Lookup (IsTree Relabel Distinct)

namespace Listing

structure Sound (table : CallTable) (l : Listing) : Prop where
  grown : table.Extends l.table
  distinct : table.Distinct → l.table.Distinct
  known : ∀ id ∈ l.calls, ∃ c, l.table.get? id = some c

variable {table : CallTable} {l : Listing}

theorem sound_start (table : CallTable) : Sound table { table := table } where
  grown := .refl table
  distinct := id
  known := by simp

theorem Sound.own (h : Sound table l) : Sound l.table l := ⟨.refl _, id, h.known⟩

theorem Sound.addVariable (h : Sound table l) (name : Text) : Sound table (l.addVariable name) where
  grown := h.grown
  distinct := h.distinct
  known := h.known

theorem Sound.addCall (h : Sound table l) (c : Call) : Sound table (l.addCall c).2 where
  grown := h.grown.trans (l.table.extends_intern c)
  distinct := fun hd => (h.distinct hd).intern c
  known := by
    intro id hid
    rcases mem_addNew.mp hid with hid | rfl
    · obtain ⟨d, hd⟩ := h.known id hid
      exact ⟨d, l.table.extends_intern c id d hd⟩
    · exact ⟨c, l.table.get?_intern_self c⟩

theorem Sound.takePlaceholders (h : Sound table l) (d : Dialect) (children : List Text)
    (ps : List (Piece Placeholder)) : Sound table (takePlaceholders d children ps l).2 := by
  induction ps generalizing l with
  | nil => exact h
  | cons p ps ih =>
    cases p with
    | char c => exact ih h
    | mark raw p =>
      have hv : Sound table (if reserved children p.name then l else l.addVariable p.name) := by
        split
        · exact h
        · exact h.addVariable p.name
      rw [Listing.takePlaceholders]
      cases p.filter with
      | none => exact ih hv
      | some f => exact ih (hv.addCall _)

theorem Sound.takeCalls (h : Sound table l) (d : Dialect)
    (ps : List (Piece (Except Arguments.Failure Call))) : Sound table (takeCalls d ps l).2 := by
  induction ps generalizing l with
  | nil => exact h
  | cons p ps ih =>
    cases p with
    | char c => exact ih h
    | mark raw r =>
      cases r with
      | ok c => exact ih (h.addCall c)
      | error e => exact h

theorem scan_spec (d : Dialect) (children : List Text) (table : CallTable) (b : Block) :
    table.Extends (scan d children table b).2 ∧
      (table.Distinct → (scan d children table b).2.Distinct) ∧
      ∀ b', (scan d children table b).1 = .ok b' → b'.name = b.name ∧ b'.children = b.children ∧
        b'.parent = b.parent ∧ ∀ id ∈ b'.calls, ∃ c, (scan d children table b).2.get? id = some c := by
  have h₁ := (sound_start table).takePlaceholders d children (d.placeholders b.content)
  have h₂ := h₁.takeCalls d (Text.pieces d.callMark Call.read
    (takePlaceholders d children (d.placeholders b.content) { table := table }).1)
  rw [scan]
  split
  rename_i content l hl
  rw [hl] at h₂
  split
  rename_i r l' hl'
  rw [hl'] at h₂
  cases r with
  | error e =>
    refine ⟨h₂.grown, h₂.distinct, ?_⟩
    intro b' hb'
    cases hb'
  | ok text =>
    refine ⟨h₂.grown, h₂.distinct, ?_⟩
    intro b' hb'
    cases hb'
    exact ⟨rfl, rfl, rfl, h₂.known⟩

theorem scan_fault {d : Dialect} {children : List Text} {table : CallTable} {b : Block}
    {fault : Fault} (h : (scan d children table b).1 = .error fault) :
    ∃ why site, fault = .callSyntax why site := by
  rw [scan] at h
  dsimp only at h
  split at h
  · cases h
  · cases h
    exact ⟨_, _, rfl⟩

end Listing

namespace Fragment

structure ScannedFrom (table : CallTable) (b b' : Block) : Prop where
  name : b'.name = b.name
  children : b'.children = b.children
  parent : b'.parent = b.parent
  known : ∀ id ∈ b'.calls, ∃ c, table.get? id = some c

theorem scanAll_spec (d : Dialect) (whole : Fragment) (bs : List Block) (table : CallTable) :
    table.Extends (scanAll d whole bs table).2 ∧
      (table.Distinct → (scanAll d whole bs table).2.Distinct) ∧
      ∀ f, (scanAll d whole bs table).1 = .ok f →
        List.Forall₂ (ScannedFrom (scanAll d whole bs table).2) bs f := by
  induction bs generalizing table with
  | nil =>
    refine ⟨.refl table, id, ?_⟩
    intro f hf
    cases hf
    exact .nil
  | cons b bs ih =>
    obtain ⟨hg, hd, hk⟩ := Listing.scan_spec d (whole.childNames b) table b
    rw [scanAll]
    split
    · rename_i e table' hs
      rw [hs] at hg hd
      refine ⟨hg, hd, ?_⟩
      intro f hf
      cases hf
    · rename_i b' table' hs
      rw [hs] at hg hd hk
      obtain ⟨hg', hd', hk'⟩ := ih table'
      generalize scanAll d whole bs table' = result at hg' hd' hk'
      obtain ⟨r, table''⟩ := result
      refine ⟨hg.trans hg', fun h => hd' (hd h), ?_⟩
      intro f hf
      cases r with
      | error e => cases hf
      | ok f' =>
        cases hf
        obtain ⟨hn, hc, hp, hids⟩ := hk b' rfl
        refine .cons ⟨hn, hc, hp, ?_⟩ (hk' f' rfl)
        intro id hid
        obtain ⟨c, hc⟩ := hids id hid
        exact ⟨c, hg' id c hc⟩

theorem scanAll_fault {d : Dialect} {whole : Fragment} {bs : List Block} {table : CallTable}
    {fault : Fault} (h : (scanAll d whole bs table).1 = .error fault) :
    ∃ why site, fault = .callSyntax why site := by
  induction bs generalizing table with
  | nil => cases h
  | cons b bs ih =>
    rw [scanAll] at h
    split at h
    · rename_i hs
      cases h
      exact Listing.scan_fault (congrArg Prod.fst hs)
    · rename_i b' table' hs
      cases hr : (scanAll d whole bs table').1 with
      | error fault' =>
        simp only [hr] at h
        cases h
        exact ih hr
      | ok f =>
        simp only [hr] at h
        cases h

theorem checkNames_fault {t : Tree} {leaving seen : List Text} {f : Fragment} {fault : Fault}
    (h : checkNames t leaving seen f = .error fault) : ∃ name, fault = .duplicateBlock name := by
  induction f generalizing seen with
  | nil => cases h
  | cons b f ih =>
    rw [checkNames] at h
    split at h
    · cases h
      exact ⟨_, rfl⟩
    · exact ih h

theorem checkNames_spec {t : Tree} {leaving seen : List Text} {f : Fragment}
    (h : checkNames t leaving seen f = .ok ()) :
    (f.map (·.name)).Nodup ∧ (∀ b ∈ f, b.name ∉ seen) ∧
      ∀ b ∈ f, t.contains b.name = true → b.name ∈ leaving := by
  induction f generalizing seen with
  | nil => simp
  | cons b f ih =>
    rw [checkNames] at h
    split at h
    · cases h
    · rename_i hb
      rw [not_or] at hb
      obtain ⟨hn, hs, hl⟩ := ih h
      refine ⟨?_, ?_, ?_⟩
      · rw [List.map_cons]
        refine List.nodup_cons.mpr ⟨?_, hn⟩
        intro hm
        obtain ⟨x, hx, hxb⟩ := List.mem_map.mp hm
        exact hs x hx (by rw [hxb]; exact List.mem_cons_self)
      · intro x hx
        rcases List.mem_cons.mp hx with rfl | hx
        · exact hb.1
        · exact fun hm => hs x hx (List.mem_cons_of_mem _ hm)
      · intro x hx hc
        rcases List.mem_cons.mp hx with rfl | hx
        · by_contra hnl
          exact hb.2 ⟨hc, hnl⟩
        · exact hl x hx hc

/-- A fragment that can be attached under the name `top`. -/
structure Ready (f : Fragment) (top : Text) (calls : CallTable) : Prop where
  tree : IsTree f.look 0
  top_name : ∃ b, f.look 0 = some b ∧ b.name = top
  known : ∀ b ∈ f, ∀ id ∈ b.calls, ∃ c, calls.get? id = some c

theorem Ready.head_name {f : Fragment} {top : Text} {calls : CallTable} (h : f.Ready top calls) :
    ∃ b, f.head? = some b ∧ b.name = top := by
  obtain ⟨b, hb, hn⟩ := h.top_name
  exact ⟨b, List.head?_eq_getElem?.trans hb, hn⟩

structure Named (f : Fragment) (t : Tree) (leaving : List Text) : Prop where
  nodup : (f.map (·.name)).Nodup
  leaving : ∀ b ∈ f, t.contains b.name = true → b.name ∈ leaving

theorem Named.mem_leaving {f : Fragment} {t : Tree} {leaving : List Text} (h : f.Named t leaving)
    {x : BlockId} {b c : Block} (hx : t.get? x = some c) (hb : b ∈ f) (hn : c.name = b.name) :
    b.name ∈ leaving := by
  refine h.leaving b hb ?_
  cases hc : t.contains b.name with
  | true => rfl
  | false => exact absurd hn (Tree.contains_eq_false_iff.mp hc x c hx)

theorem named_of_checkNames {f : Fragment} {t : Tree} {leaving : List Text}
    (h : checkNames t leaving [] f = .ok ()) : f.Named t leaving :=
  ⟨(checkNames_spec h).1, (checkNames_spec h).2.2⟩

theorem Named.distinct {f : Fragment} {t : Tree} {leaving : List Text} (h : f.Named t leaving) :
    Distinct f.look := by
  intro i j b c hi hj hbc
  obtain ⟨hil, hib⟩ := List.getElem?_eq_some_iff.mp hi
  obtain ⟨hjl, hjc⟩ := List.getElem?_eq_some_iff.mp hj
  have hi' : i < (f.map (·.name)).length := by rw [List.length_map]; exact hil
  have hj' : j < (f.map (·.name)).length := by rw [List.length_map]; exact hjl
  have hnames : (f.map (·.name))[i] = (f.map (·.name))[j] := by
    rw [List.getElem_map, List.getElem_map, hib, hjc, hbc]
  exact h.nodup.getElem_inj_iff.mp hnames

theorem relabel_of_forall₂ {table : CallTable} {f g : Fragment}
    (h : List.Forall₂ (ScannedFrom table) f g) : Relabel f.look g.look := by
  intro x
  rcases Nat.lt_or_ge x f.length with hlt | hge
  · have hlt' : x < g.length := h.length_eq ▸ hlt
    have hs := h.get hlt hlt'
    right
    exact ⟨f[x], g[x], List.getElem?_eq_getElem hlt, List.getElem?_eq_getElem hlt',
      hs.children, hs.parent⟩
  · left
    exact ⟨List.getElem?_eq_none hge, List.getElem?_eq_none (h.length_eq ▸ hge)⟩

theorem names_of_forall₂ {table : CallTable} {f g : Fragment}
    (h : List.Forall₂ (ScannedFrom table) f g) : g.map (·.name) = f.map (·.name) := by
  induction h with
  | nil => rfl
  | cons hs _ ih => rw [List.map_cons, List.map_cons, ih, hs.name]

theorem known_of_forall₂ {table : CallTable} {f g : Fragment}
    (h : List.Forall₂ (ScannedFrom table) f g) :
    ∀ b ∈ g, ∀ id ∈ b.calls, ∃ c, table.get? id = some c := by
  induction h with
  | nil => intro b hb; cases hb
  | cons hs _ ih =>
    intro b hb
    rcases List.mem_cons.mp hb with rfl | hb
    · exact hs.known
    · exact ih b hb

theorem named_of_names_eq {f g : Fragment} {t : Tree} {leaving : List Text}
    (hn : g.map (·.name) = f.map (·.name)) (h : f.Named t leaving) : g.Named t leaving where
  nodup := hn ▸ h.nodup
  leaving := by
    intro b hb hc
    have hm : b.name ∈ f.map (·.name) := hn ▸ List.mem_map_of_mem hb
    obtain ⟨x, hx, hxb⟩ := List.mem_map.mp hm
    rw [← hxb]
    exact h.leaving x hx (by rw [hxb]; exact hc)

structure Fits (t : Tree) (top : Text) (replaced : Option BlockId)
    (r : Except Fault Fragment × CallTable) : Prop where
  grown : t.calls.Extends r.2
  distinct : t.calls.Distinct → r.2.Distinct
  ready : ∀ f, r.1 = .ok f → f.Ready top r.2
  named : ∀ f, r.1 = .ok f → f.Named t (leavingNames t replaced)
  fault : ∀ e, r.1 = .error e → e.isCacheWrite = false

theorem fits_fault (t : Tree) (top : Text) (replaced : Option BlockId) {e : Fault}
    (he : e.isCacheWrite = false) : Fits t top replaced (.error e, t.calls) where
  grown := .refl t.calls
  distinct := id
  ready := by
    intro f hf
    cases hf
  named := by
    intro f hf
    cases hf
  fault := by
    intro e' he'
    cases he'
    exact he

theorem fits_compile (d : Dialect) (t : Tree) (top source : Text) (replaced : Option BlockId) :
    Fits t top replaced (compile d t top source replaced) := by
  rw [compile]
  split
  · rename_i hx
    obtain ⟨name, rfl⟩ := extract_fault hx
    exact fits_fault t top replaced rfl
  · rename_i f₀ hx
    obtain ⟨htree, b, hb, hbn⟩ := extract_spec hx
    split
    · rename_i hnames
      obtain ⟨name, rfl⟩ := checkNames_fault hnames
      exact fits_fault t top replaced rfl
    · rename_i hnames
      obtain ⟨hg, hd, hk⟩ := scanAll_spec d f₀ f₀ t.calls
      refine ⟨hg, hd, ?_, ?_, ?_⟩
      · intro f hf
        have h₂ := hk f hf
        obtain ⟨b', hb', -⟩ := (relabel_of_forall₂ h₂).of_some hb
        refine ⟨htree.relabel (relabel_of_forall₂ h₂), ⟨b', hb', ?_⟩, known_of_forall₂ h₂⟩
        have hname := congrArg (·[0]?) (names_of_forall₂ h₂)
        simp only [List.getElem?_map] at hname
        have hb₀ : f₀[0]? = some b := hb
        have hb₁ : f[0]? = some b' := hb'
        rw [hb₀, hb₁, Option.map_some, Option.map_some, Option.some.injEq] at hname
        rw [hname, hbn]
      · intro f hf
        exact named_of_names_eq (names_of_forall₂ (hk f hf)) (named_of_checkNames hnames)
      · intro e he
        obtain ⟨why, site, rfl⟩ := scanAll_fault he
        rfl

end Fragment

end BlockTemplate
