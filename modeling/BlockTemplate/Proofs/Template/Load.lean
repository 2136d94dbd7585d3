import BlockTemplate.Proofs.Snapshot.Restore
import BlockTemplate.Proofs.Template.Attach
import BlockTemplate.Template.Load

/-!
# Loading files keeps a template sound

The blocks of an included file get slots that were empty before, and only its top block is dissolved
again. So whatever goes wrong on the way, the blocks that were there before are there afterwards, and
what is kept for them stays good.
-/

namespace BlockTemplate

open Lookup (IsTree)

namespace Tree

theorem outlineTo_calls (t : Tree) (calls : CallTable) (depth : Nat) (id : BlockId) :
    ({ t with calls := calls } : Tree).outlineTo depth id = t.outlineTo depth id := by
  induction depth generalizing id with
  | zero => rfl
  | succ depth ih =>
    have hfun : ({ t with calls := calls } : Tree).outlineTo depth = t.outlineTo depth := funext ih
    rw [outlineTo, outlineTo, hfun]
    rfl

theorem leavingNames_calls (t : Tree) (calls : CallTable) (replaced : Option BlockId) :
    Fragment.leavingNames { t with calls := calls } replaced = Fragment.leavingNames t replaced := by
  cases replaced with
  | none => rfl
  | some id =>
    have ho : ({ t with calls := calls } : Tree).outline? id = t.outline? id :=
      outlineTo_calls t calls _ id
    simp only [Fragment.leavingNames, Option.map_some, Option.getD_some, namesUnder, preorder, ho]

end Tree

theorem Fragment.Named.withCalls {f : Fragment} {t : Tree} {calls : CallTable}
    {replaced : Option BlockId}
    (h : f.Named { t with calls := calls } (leavingNames { t with calls := calls } replaced)) :
    f.Named t (leavingNames t replaced) where
  nodup := h.nodup
  leaving := by
    rw [← Tree.leavingNames_calls t calls replaced]
    exact h.leaving

theorem Inclusion.exists_number_of_mem_mark {d : Dialect} {next : Nat} {ps : List (Piece Tag)}
    {i : Inclusion} (h : i ∈ (mark d next ps).2) :
    ∃ k, next ≤ k ∧ k < next + (mark d next ps).2.length ∧ i.name = numbered k := by
  fun_induction mark d next ps with
  | case1 next => cases h
  | case2 next raw path rest text inclusions hmark ih =>
    rw [hmark] at ih
    dsimp only at h ih ⊢
    rw [List.length_cons]
    rcases List.mem_cons.mp h with rfl | h
    · exact ⟨next, Nat.le_refl next, by omega, rfl⟩
    · obtain ⟨k, hle, hlt, hname⟩ := ih h
      exact ⟨k, by omega, by omega, hname⟩
  | case3 next p rest hnot text inclusions hmark ih =>
    rw [hmark] at ih
    exact ih h

theorem Snapshot.exists_number_of_mem_renumber {next : Nat} {is : List Inclusion} {names : Renaming}
    {i : Inclusion} (h : i ∈ (renumber next is names).1) :
    ∃ k, next ≤ k ∧ k < next + is.length ∧ i.name = Inclusion.numbered k := by
  induction is generalizing next names with
  | nil => cases h
  | cons j is ih =>
    rw [List.length_cons]
    rcases List.mem_cons.mp h with rfl | h
    · exact ⟨next, Nat.le_refl next, by omega, rfl⟩
    · obtain ⟨k, hle, hlt, hname⟩ := ih h
      exact ⟨k, by omega, by omega, hname⟩

namespace Template

variable {t u : Template} {e : Engine} {top : Text}

structure Prepares (t : Template) (top : Text) (replaced : Option BlockId)
    (r : Except Fault Prepared × Template) : Prop where
  carried : Carried t r.2
  tree : r.2.tree = { t.tree with calls := r.2.tree.calls }
  grown : t.tree.calls.Extends r.2.tree.calls
  ready : ∀ p, r.1 = .ok p → p.fragment.Ready top r.2.tree.calls
  named : ∀ p, r.1 = .ok p → p.fragment.Named t.tree (Fragment.leavingNames t.tree replaced)
  fault : ∀ e, r.1 = .error e → e.isCacheWrite = false

theorem prepares_fault (h : t.tree.Sound) (top : Text) (replaced : Option BlockId) {fault : Fault}
    (hf : fault.isCacheWrite = false) : Prepares t top replaced (.error fault, t) where
  carried := ⟨h, Tree.Keeps.refl t.tree, rfl, rfl⟩
  tree := rfl
  grown := .refl t.tree.calls
  ready := by
    intro p hp
    cases hp
  named := by
    intro p hp
    cases hp
  fault := by
    intro e he
    cases he
    exact hf

theorem prepares_text (h : t.tree.Sound) (top : Text) (replaced : Option BlockId) (text : Text) :
    Prepares t top replaced (t.prepareText e top replaced text) := by
  rw [prepareText]
  generalize Inclusion.extract e.dialect t.nextInclusion text = x
  obtain ⟨source, inclusions⟩ := x
  dsimp only
  have hfits := Fragment.fits_compile e.dialect t.tree top source replaced
  have hcarried : ∀ n, Carried t (Template.withCalls { t with nextInclusion := n }
      (Fragment.compile e.dialect t.tree top source replaced).2) := fun n =>
    ⟨h.withCalls hfits.grown (hfits.distinct h.calls), Tree.Keeps.refl t.tree, rfl, rfl⟩
  generalize Fragment.compile e.dialect t.tree top source replaced = r at hfits hcarried
  obtain ⟨r, calls⟩ := r
  cases r with
  | error fault =>
    refine ⟨hcarried _, rfl, hfits.grown, ?_, ?_, ?_⟩
    · intro p hp
      cases hp
    · intro p hp
      cases hp
    · intro e he
      cases he
      exact hfits.fault fault rfl
  | ok f =>
    refine ⟨hcarried _, rfl, hfits.grown, ?_, ?_, ?_⟩
    · intro p hp
      cases hp
      exact hfits.ready f rfl
    · intro p hp
      cases hp
      exact hfits.named f rfl
    · intro e he
      cases he

theorem prepares_file (h : t.tree.Sound) (fs : Files) (file top : Text)
    (replaced : Option BlockId) : Prepares t top replaced (t.prepareFile e fs file top replaced) := by
  rw [prepareFile]
  split
  · exact prepares_fault h top replaced rfl
  · exact prepares_text h top replaced _

theorem carried_restore (h : t.tree.Sound) (top : Text) (s : Snapshot) :
    Carried t (t.restore e top s).2 ∧
      (t.restore e top s).2.tree = { t.tree with calls := (t.restore e top s).2.tree.calls } ∧
      t.tree.calls.Extends (t.restore e top s).2.tree.calls ∧
      ∀ f is, (t.restore e top s).1 = some (f, is) →
        f.Ready top (t.restore e top s).2.tree.calls := by
  obtain ⟨hg, hd, hr⟩ := s.restore_spec e.dialect top t.tree.calls t.nextInclusion
  rw [restore]
  generalize s.restore e.dialect top t.tree.calls t.nextInclusion = r at hg hd hr
  obtain ⟨r, calls⟩ := r
  exact ⟨⟨h.withCalls hg (hd h.calls), Tree.Keeps.refl t.tree, rfl, rfl⟩, rfl, hg, hr⟩

theorem prepares (h : t.tree.Sound) (fs : Files) (file top : Text) (replaced : Option BlockId) :
    Prepares t top replaced (t.prepare e fs file top replaced) := by
  rw [prepare]
  split
  · exact prepares_file h fs file top replaced
  · rename_i s _
    obtain ⟨hc, htree, hg, hr⟩ := carried_restore (e := e) h top s
    generalize t.restore e top s = x at hc htree hg hr
    obtain ⟨r, u⟩ := x
    cases r with
    | none =>
      have hp := prepares_file (e := e) hc.sound fs file top replaced
      refine ⟨hc.trans hp.carried, ?_, hg.trans hp.grown, hp.ready, ?_, hp.fault⟩
      · dsimp only at htree ⊢
        rw [hp.tree, htree]
      · intro p hok
        have hn := hp.named p hok
        dsimp only at htree hn
        rw [htree] at hn
        exact hn.withCalls
    | some x =>
      obtain ⟨f, inclusions⟩ := x
      dsimp only at htree ⊢
      cases hcheck : Fragment.checkNames u.tree (Fragment.leavingNames u.tree replaced) [] f with
      | error fault =>
        obtain ⟨name, rfl⟩ := Fragment.checkNames_fault hcheck
        refine ⟨hc, htree, hg, ?_, ?_, ?_⟩
        · intro p hp
          cases hp
        · intro p hp
          cases hp
        · intro e he
          cases he
          rfl
      | ok x =>
        have hn := Fragment.named_of_checkNames hcheck
        rw [htree] at hn
        refine ⟨hc, htree, hg, ?_, ?_, ?_⟩
        · intro p hp
          cases hp
          exact hr f inclusions rfl
        · intro p hp
          cases hp
          exact hn.withCalls
        · intro e he
          cases he

structure Numbers (t : Template) (r : Except Fault Prepared × Template) : Prop where
  grown : t.nextInclusion ≤ r.2.nextInclusion
  fresh : ∀ p, r.1 = .ok p → ∀ i ∈ p.inclusions,
    ∃ k, t.nextInclusion ≤ k ∧ k < r.2.nextInclusion ∧ i.name = Inclusion.numbered k

theorem numbers_text (t : Template) (top : Text) (replaced : Option BlockId) (text : Text) :
    Numbers t (t.prepareText e top replaced text) := by
  have hmem := @Inclusion.exists_number_of_mem_mark e.dialect t.nextInclusion
    (Tag.pieces (Tag.stripComments text))
  rw [prepareText, Inclusion.extract]
  generalize Inclusion.mark e.dialect t.nextInclusion _ = x at hmem
  obtain ⟨source, inclusions⟩ := x
  dsimp only
  generalize Fragment.compile e.dialect t.tree top source replaced = r
  obtain ⟨r, calls⟩ := r
  cases r with
  | error fault =>
    refine ⟨Nat.le_add_right _ _, ?_⟩
    intro p hp
    cases hp
  | ok f =>
    refine ⟨Nat.le_add_right _ _, ?_⟩
    intro p hp i hi
    cases hp
    exact hmem hi

theorem numbers_file (t : Template) (fs : Files) (file top : Text) (replaced : Option BlockId) :
    Numbers t (t.prepareFile e fs file top replaced) := by
  rw [prepareFile]
  split
  · refine ⟨Nat.le_refl _, ?_⟩
    intro p hp
    cases hp
  · exact numbers_text t top replaced _

theorem numbers_prepare (t : Template) (fs : Files) (file top : Text) (replaced : Option BlockId) :
    Numbers t (t.prepare e fs file top replaced) := by
  rw [prepare]
  split
  · exact numbers_file t fs file top replaced
  · rename_i s _
    have hgrown : t.nextInclusion ≤ (t.restore e top s).2.nextInclusion := Nat.le_add_right _ _
    have hmem : ∀ f is, (t.restore e top s).1 = some (f, is) → ∀ i ∈ is, ∃ k,
        t.nextInclusion ≤ k ∧ k < (t.restore e top s).2.nextInclusion ∧
          i.name = Inclusion.numbered k := by
      intro f is hf i hi
      simp only [restore, Snapshot.restore, Option.map_eq_some_iff, Prod.mk.injEq] at hf
      obtain ⟨r, -, -, rfl⟩ := hf
      exact Snapshot.exists_number_of_mem_renumber hi
    generalize t.restore e top s = x at hgrown hmem
    obtain ⟨r, u⟩ := x
    cases r with
    | none =>
      have hfile := numbers_file (e := e) u fs file top replaced
      refine ⟨Nat.le_trans hgrown hfile.grown, ?_⟩
      intro p hp i hi
      obtain ⟨k, hle, hlt, hname⟩ := hfile.fresh p hp i hi
      exact ⟨k, Nat.le_trans hgrown hle, hlt, hname⟩
    | some x =>
      obtain ⟨f, inclusions⟩ := x
      dsimp only
      split
      · refine ⟨hgrown, ?_⟩
        intro p hp
        cases hp
      · refine ⟨hgrown, ?_⟩
        intro p hp
        cases hp
        exact hmem f inclusions rfl

structure Includes (t : Template) (top : Text) (r : Loaded) : Prop where
  carried : Carried t r.2.1
  fresh : (∀ fault, r.1 = .error fault → fault.isCacheWrite = true) → t.tree.contains top = false

def IncludesFiles (load : Text → Text → Target → Template → Files → Loaded) : Prop :=
  ∀ file top p placeholder t fs, t.tree.Sound → t.tree.Live p →
    Includes t top (load file top (.under p placeholder) t fs)

theorem carried_refl (h : t.tree.Sound) : Carried t t := ⟨h, Tree.Keeps.refl t.tree, rfl, rfl⟩

theorem Carried.new_block (hc : Carried t u) (h : t.tree.Sound) {name : Text} {id : BlockId}
    (hnew : t.tree.contains name = false) (hid : u.tree.lookup name = .ok id) :
    ¬ t.tree.Live id ∧ ∃ b p, u.tree.get? id = some b ∧ b.parent = some p := by
  obtain ⟨b, hb, hn⟩ := get?_of_lookup hid
  have hnot : ¬ t.tree.Live id := by
    intro ⟨c, hcb⟩
    obtain ⟨b', hb', hname⟩ := hc.keeps id c hcb
    rw [hb, Option.some.injEq] at hb'
    subst hb'
    exact Tree.contains_eq_false_iff.mp hnew id c hcb (hname.symm.trans hn)
  refine ⟨hnot, b, ?_⟩
  cases hp : b.parent with
  | none =>
    rw [hc.sound.tree.eq_root_of_orphan hb hp] at hnot
    exact absurd h.live_root hnot
  | some p => exact ⟨p, hb, rfl⟩

theorem carried_dissolve (h : t.tree.Sound) (hc : Carried t u) {name : Text} {id : BlockId}
    (hnew : t.tree.contains name = false) (hid : u.tree.lookup name = .ok id) (token : Text) :
    Carried t { u with tree := u.tree.dissolve id token } := by
  obtain ⟨hnot, b, p, hb, hp⟩ := hc.new_block h hnew hid
  refine ⟨hc.sound.dissolve hb hp token, ?_, hc.state, hc.current⟩
  intro x c hx
  obtain ⟨d, hd, hdc⟩ := hc.keeps x c hx
  have hne : x ≠ id := by
    rintro rfl
    exact hnot ⟨c, hx⟩
  obtain ⟨g, hg, hgd⟩ := Tree.kept_dissolve hc.sound.tree hb hp token hd hne
  exact ⟨g, hg, hgd.trans hdc⟩

variable {d : Dialect} {loader : Text → Text → Target → Template → Files → Loaded}

theorem pull_cases (d : Dialect) (loader : Text → Text → Target → Template → Files → Loaded)
    (i : Inclusion) (t : Template) (fs : Files) :
    (∃ fault, t.tree.owner i.name = .error fault ∧ pull d loader i t fs = (.error fault, t, fs)) ∨
    ∃ p r, t.tree.owner i.name = .ok p ∧ loader i.path i.name (.under p i.name) t fs = r ∧
      (pull d loader i t fs).2.2 = r.2.2 ∧
      ((pull d loader i t fs).2.1 = r.2.1 ∨
        (∀ fault, r.1 = .error fault → fault.isCacheWrite = true) ∧
        ∃ id, r.2.1.tree.lookup i.name = .ok id ∧ (pull d loader i t fs).2.1 =
          { r.2.1 with tree := r.2.1.tree.dissolve id (d.token (childName i.name)) }) := by
  rw [pull]
  cases hp : t.tree.owner i.name with
  | error fault => exact .inl ⟨fault, rfl, rfl⟩
  | ok p =>
    refine .inr ⟨p, _, rfl, rfl, ?_⟩
    dsimp only
    generalize loader i.path i.name (.under p i.name) t fs = r
    obtain ⟨r, u, fs'⟩ := r
    cases r with
    | ok x =>
      dsimp only
      cases hid : u.tree.lookup i.name with
      | error fault => exact ⟨rfl, .inl rfl⟩
      | ok id =>
        refine ⟨rfl, .inr ⟨?_, id, rfl, rfl⟩⟩
        intro fault hf
        cases hf
    | error fault =>
      dsimp only
      by_cases hw : fault.isCacheWrite = true
      · simp only [if_pos hw]
        cases hid : u.tree.lookup i.name with
        | error fault' => exact ⟨rfl, .inl rfl⟩
        | ok id =>
          refine ⟨rfl, .inr ⟨?_, id, rfl, rfl⟩⟩
          intro fault' hf
          cases hf
          exact hw
      · simp only [if_neg hw, true_or, and_self]

theorem carried_pull (hl : IncludesFiles loader) (h : t.tree.Sound) (i : Inclusion) (fs : Files) :
    Carried t (pull d loader i t fs).2.1 := by
  rcases pull_cases d loader i t fs with ⟨fault, -, hpull⟩ | ⟨p, r, hp, rfl, -, hr⟩
  · rw [hpull]
    exact carried_refl h
  · obtain ⟨b, hb, -⟩ := Tree.live_of_owner h.tree hp
    have hinc := hl i.path i.name p i.name t fs h ⟨b, hb⟩
    rcases hr with hloaded | ⟨hw, id, hid, hdissolved⟩
    · rw [hloaded]
      exact hinc.carried
    · rw [hdissolved]
      exact carried_dissolve h hinc.carried (hinc.fresh hw) hid _

theorem pullAll_preserves {P : Template → Files → Prop} {is : List Inclusion}
    (hstep : ∀ i ∈ is, ∀ t fs, P t fs → P (pull d loader i t fs).2.1 (pull d loader i t fs).2.2)
    (unsaved : Option Fault) {fs : Files} (ht : P t fs) :
    P (pullAll d loader is unsaved t fs).2.1 (pullAll d loader is unsaved t fs).2.2 := by
  induction is generalizing t unsaved fs with
  | nil => cases unsaved <;> exact ht
  | cons i is ih =>
    have hp := hstep i List.mem_cons_self t fs ht
    have hrest : ∀ j ∈ is, ∀ t fs, P t fs →
        P (pull d loader j t fs).2.1 (pull d loader j t fs).2.2 := fun j hj =>
      hstep j (List.mem_cons_of_mem i hj)
    rw [pullAll]
    split
    · rename_i hr
      rw [hr] at hp
      exact ih hrest _ hp
    · rename_i hr
      rw [hr] at hp
      split
      · exact ih hrest _ hp
      · exact hp

theorem carried_pullAll (hl : IncludesFiles loader) (is : List Inclusion) (h : t.tree.Sound)
    (unsaved : Option Fault) (fs : Files) : Carried t (pullAll d loader is unsaved t fs).2.1 :=
  pullAll_preserves (P := fun u _ => Carried t u)
    (fun i _ _ fs hc => hc.trans (carried_pull hl hc.sound i fs)) unsaved (carried_refl h)

theorem template_finishLoad (e : Engine) (file : Text) (s : Option Snapshot) (r : Loaded) :
    (finishLoad e file s r).2.1 = r.2.1 := by
  obtain ⟨r, t, fs⟩ := r
  cases r <;> simp only [finishLoad] <;> repeat' split
  all_goals rfl

theorem not_contains_of_keeps {t u : Tree} (h : t.Keeps u) {name : Text}
    (hn : u.contains name = false) : t.contains name = false := by
  rw [Tree.contains_eq_false_iff] at hn ⊢
  intro id b hb
  obtain ⟨c, hc, hcb⟩ := h id b hb
  rw [← hcb]
  exact hn id c hc

theorem not_contains_of_ready {f : Fragment} {calls : CallTable} (hn : f.Named t.tree [])
    (hr : f.Ready top calls) : t.tree.contains top = false := by
  obtain ⟨b, hb, rfl⟩ := hr.top_name
  cases hc : t.tree.contains b.name with
  | false => rfl
  | true => exact absurd (hn.leaving b (List.mem_of_getElem? hb) hc) List.not_mem_nil

theorem Prepares.named_after {replaced : Option BlockId} {r : Except Fault Prepared × Template}
    (h : Prepares t top replaced r) {p : Prepared} (hp : r.1 = .ok p) :
    p.fragment.Named r.2.tree (Fragment.leavingNames r.2.tree replaced) := by
  have hn := h.named p hp
  rw [h.tree, Tree.leavingNames_calls]
  exact ⟨hn.nodup, hn.leaving⟩

structure Readies (t u : Template) : Prop where
  carried : Carried t u
  tree : u.tree = { t.tree with calls := u.tree.calls }
  grown : t.tree.calls.Extends u.tree.calls
  numbers : t.nextInclusion ≤ u.nextInclusion

theorem load_readies (e : Engine) (allowed : Nat) (file top : Text) (target : Target)
    (h : t.tree.Sound) (fs : Files) :
    (∃ u fault, load e (allowed + 1) file top target t fs = (.error fault, u, fs) ∧
      Readies t u ∧ fault.isCacheWrite = false) ∨
    ∃ u f is, Readies t u ∧ f.Ready top u.tree.calls ∧
      f.Named u.tree (Fragment.leavingNames u.tree target.replaced) ∧
      (∀ i ∈ is, ∃ k, t.nextInclusion ≤ k ∧ k < u.nextInclusion ∧
        i.name = Inclusion.numbered k) ∧
      (load e (allowed + 1) file top target t fs).2.1 =
        (pullAll e.dialect (load e allowed) is none (u.attach e.dialect f target).2 fs).2.1 := by
  have hprep := prepares (e := e) h fs file top target.replaced
  have hnumbers := numbers_prepare (e := e) t fs file top target.replaced
  rw [load]
  cases hr : t.prepare e fs file top target.replaced with
  | mk r u =>
    rw [hr] at hprep hnumbers
    have hreadies : Readies t u := ⟨hprep.carried, hprep.tree, hprep.grown, hnumbers.grown⟩
    cases r with
    | error fault => exact .inl ⟨u, fault, rfl, hreadies, hprep.fault fault rfl⟩
    | ok q =>
      refine .inr ⟨u, q.fragment, q.inclusions, hreadies, hprep.ready q rfl, hprep.named_after rfl,
        hnumbers.fresh q rfl, ?_⟩
      dsimp only
      rw [template_finishLoad]

theorem load_cases (e : Engine) {allowed : Nat} (hl : IncludesFiles (load e allowed)) (file : Text)
    (target : Target) (h : t.tree.Sound) (ht : t.Admits top target) (fs : Files) :
    (∃ u fault, load e (allowed + 1) file top target t fs = (.error fault, u, fs) ∧
      Carried t u ∧ fault.isCacheWrite = false) ∨
    ∃ u f, Carried t u ∧ f.Ready top u.tree.calls ∧
      f.Named u.tree (Fragment.leavingNames u.tree target.replaced) ∧
      Carried (u.attach e.dialect f target).2 (load e (allowed + 1) file top target t fs).2.1 := by
  rcases load_readies e allowed file top target h fs with
    ⟨u, fault, hload, hu, hw⟩ | ⟨u, f, is, hu, hready, hnamed, -, hload⟩
  · exact .inl ⟨u, fault, hload, hu.carried, hw⟩
  · have htree := tree_attach e.dialect hu.carried.sound (hu.carried.admits ht) hready hnamed
    refine .inr ⟨u, f, hu.carried, hready, hnamed, ?_⟩
    rw [hload]
    exact carried_pullAll hl is htree none fs

theorem includes_load (e : Engine) (allowed : Nat) : IncludesFiles (load e allowed) := by
  induction allowed with
  | zero =>
    intro file top p placeholder t fs h _
    refine ⟨carried_refl h, ?_⟩
    intro hfault
    have := hfault _ rfl
    cases this
  | succ allowed ih =>
    intro file top p placeholder t fs h hp
    rcases load_cases e ih file (.under p placeholder) h hp fs with
      ⟨u, fault, hload, hc, hw⟩ | ⟨u, f, hc, hr, hn, hrest⟩
    · rw [hload]
      refine ⟨hc, ?_⟩
      intro hfault
      rw [hfault fault rfl] at hw
      cases hw
    · refine ⟨(hc.trans ?_).trans hrest, fun _ => ?_⟩
      · exact carried_under e.dialect hc.sound (hc.keeps.live hp) placeholder hr hn
      · exact not_contains_of_keeps hc.keeps (not_contains_of_ready hn hr)

theorem tree_load (e : Engine) (allowed : Nat) (file : Text) (target : Target) (h : t.tree.Sound)
    (ht : t.Admits top target) (fs : Files) :
    (load e allowed file top target t fs).2.1.tree.Sound := by
  cases allowed with
  | zero => exact h
  | succ allowed =>
    rcases load_cases e (includes_load e allowed) file target h ht fs with
      ⟨u, fault, hload, hc, -⟩ | ⟨u, f, -, -, -, hrest⟩
    · rw [hload]
      exact hc.sound
    · exact hrest.sound

theorem sound_load (e : Engine) (allowed : Nat) (file : Text) (target : Target) (h : t.Sound)
    (ht : t.Admits top target) (fs : Files) : (load e allowed file top target t fs).2.1.Sound := by
  cases allowed with
  | zero => exact h
  | succ allowed =>
    rcases load_cases e (includes_load e allowed) file target h.tree ht fs with
      ⟨u, fault, hload, hc, -⟩ | ⟨u, f, hc, hr, hn, hrest⟩
    · rw [hload]
      exact h.carried hc
    · exact (sound_attach e.dialect (h.carried hc) (hc.admits ht) hr hn).carried hrest

end Template

end BlockTemplate
