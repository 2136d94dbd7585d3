import BlockTemplate.Proofs.Render.Local
import BlockTemplate.Proofs.Template.Effect

/-!
# Renders that do not meet

Two blocks of which neither is an ancestor of the other have no block below them in common. If they
share no local variable that is set either, then what one render reads is not what the other writes,
and the order of the two does not matter.
-/

namespace BlockTemplate

open Lookup (Reach)
open Reference (listed)

namespace State

variable {s u : State}

theorem SameAt.symm {x : BlockId} (h : SameAt x s u) : SameAt x u s :=
  ⟨h.outputs.symm, h.marks.symm⟩

theorem eq_of_sameAt (hl : ∀ x, s.locals.get? x = u.locals.get? x) (hg : s.globals = u.globals)
    (hk : ∀ x, SameAt x s u) (hr : s.rootRendered = u.rootRendered) : s = u := by
  have hlocals : s.locals = u.locals := Dict.ext_get? hl
  have houtputs : s.outputs = u.outputs := Dict.ext_get? fun x => (hk x).outputs
  have hmarks : s.marks = u.marks := Dict.ext_get? fun x => (hk x).marks
  obtain ⟨locals, globals, outputs, marks, rootRendered⟩ := s
  cases hlocals
  cases hg
  cases houtputs
  cases hmarks
  cases hr
  rfl

end State

structure Outline.Apart (pool : Pool) (a b : Outline) : Prop where
  ids : ∀ x ∈ a.preorder.map (·.1), x ∉ b.preorder.map (·.1)
  vars : ∀ x ∈ listed a.preorder, x ∈ listed b.preorder → pool.get? x = none

theorem Outline.Apart.symm {pool : Pool} {a b : Outline} (h : a.Apart pool b) : b.Apart pool a where
  ids := fun x hb ha => h.ids x ha hb
  vars := fun x hb ha => h.vars x ha hb

namespace Pass

variable {e : Engine} {table : CallTable} {a b : Outline} {s : State}

theorem changes_run (e : Engine) (table : CallTable) {o : Outline}
    (hn : (o.preorder.map (·.1)).Nodup) (s : State) (log : CallLog) :
    Changes o.preorder o.inner (o.exposed s.isHidden) [o.id] ⟨s, ∅, log⟩ (run e table o s log).2 :=
  changes_block e table false false o hn ⟨s, ∅, log⟩

theorem sameAt_run (e : Engine) (table : CallTable) {o : Outline} {x : BlockId}
    (hx : x ∉ o.preorder.map (·.1)) (s : State) (log : CallLog) :
    (run e table o s log).2.state.SameAt x s := sameAt_block e table false false o hx ⟨s, ∅, log⟩

theorem alike_of_apart (e : Engine) (table : CallTable) (hab : a.Apart s.locals b)
    (hb : (b.preorder.map (·.1)).Nodup) (log log₁ log₂ : CallLog) :
    Alike (· ∈ listed a.preorder) (· ∈ a.preorder.map (·.1))
      ⟨(run e table b s log).2.state, ∅, log₁⟩ ⟨s, ∅, log₂⟩ where
  locals := by
    intro x hx
    rw [(changes_run e table hb s log).locals]
    by_cases hxb : x ∈ listed b.preorder
    · rw [if_pos hxb, hab.vars x hx hxb]
    · rw [if_neg hxb]
  globals := (changes_run e table hb s log).globals
  kept := fun _ hx => sameAt_run e table (hab.ids _ hx) s log
  values := rfl

theorem run_after (he : e.Pure) (hab : a.Apart s.locals b) (hb : (b.preorder.map (·.1)).Nodup)
    (log log₁ log₂ : CallLog) :
    (run e table a (run e table b s log).2.state log₁).1 = (run e table a s log₂).1 ∧
      ∀ x ∈ a.preorder.map (·.1),
        (run e table a (run e table b s log).2.state log₁).2.state.SameAt x
          (run e table a s log₂).2.state := by
  have h := (alike_of_apart e table hab hb log log₁ log₂).block he table false false a
    (fun _ hx => hx) (fun _ hx => hx)
  exact ⟨h.1, h.2.kept⟩

theorem run_commute (he : e.Pure) (hab : a.Apart s.locals b) (ha : (a.preorder.map (·.1)).Nodup)
    (hb : (b.preorder.map (·.1)).Nodup) (log log₁ log' log₁' : CallLog) :
    (run e table b (run e table a s log).2.state log₁).2.state =
      (run e table a (run e table b s log').2.state log₁').2.state := by
  have hfirst := changes_run e table ha s log
  have hsecond := changes_run e table hb (run e table a s log).2.state log₁
  have hfirst' := changes_run e table hb s log'
  have hsecond' := changes_run e table ha (run e table b s log').2.state log₁'
  refine State.eq_of_sameAt ?_ ?_ ?_ ?_
  · intro x
    rw [hsecond.locals, hfirst.locals, hsecond'.locals, hfirst'.locals]
    split <;> split <;> rfl
  · rw [hsecond.globals, hfirst.globals, hsecond'.globals, hfirst'.globals]
  · -- What is kept for a block was written by the render that walks it, or by neither.
    intro x
    by_cases hxa : x ∈ a.preorder.map (·.1)
    · exact (sameAt_run e table (hab.ids x hxa) _ log₁).trans
        ((run_after he hab hb log' log₁' log).2 x hxa).symm
    · by_cases hxb : x ∈ b.preorder.map (·.1)
      · exact ((run_after he hab.symm ha log log₁ log').2 x hxb).trans
          (sameAt_run e table hxa _ log₁').symm
      · exact ((sameAt_run e table hxb _ log₁).trans (sameAt_run e table hxa s log)).trans
          ((sameAt_run e table hxa _ log₁').trans (sameAt_run e table hxb s log')).symm
  · rw [hsecond.rootRendered, hfirst.rootRendered, hsecond'.rootRendered, hfirst'.rootRendered,
      Bool.or_right_comm]

end Pass

namespace Template

variable {t : Template} {e : Engine} {i j : BlockId}

/-- Neither block is an ancestor of the other, and no set local variable is listed below both. -/
structure Independent (t : Template) (i j : BlockId) : Prop where
  left : ¬ Reach t.tree.get? i j
  right : ¬ Reach t.tree.get? j i
  vars : ∀ x, t.state.locals.contains x = true →
    ¬ ((∃ y b, Reach t.tree.get? i y ∧ t.tree.get? y = some b ∧ x ∈ b.vars) ∧
      ∃ y b, Reach t.tree.get? j y ∧ t.tree.get? y = some b ∧ x ∈ b.vars)

theorem Independent.outlines (h : t.Independent i j) (ht : t.Sound) {a b : Outline}
    (ha : a.Mirrors t.tree.get?) (hb : b.Mirrors t.tree.get?) (hai : a.id = i) (hbj : b.id = j) :
    a.Apart t.state.locals b where
  ids := by
    intro x hxa hxb
    rw [ha.mem_ids_iff ht.tree.tree, hai] at hxa
    rw [hb.mem_ids_iff ht.tree.tree, hbj] at hxb
    rcases ht.tree.tree.reach_linear hxa hxb with hij | hji
    · exact h.left hij
    · exact h.right hji
  vars := by
    intro x hxa hxb
    rw [ha.mem_listed_iff, hai] at hxa
    rw [hb.mem_listed_iff, hbj] at hxb
    have hnot : ¬ t.state.locals.contains x = true := fun hc => h.vars x hc ⟨hxa, hxb⟩
    exact Option.not_isSome_iff_eq_none.mp hnot

theorem independent_of_preorder (ht : t.Sound) {b d : Block} (hb : t.tree.get? i = some b)
    (hd : t.tree.get? j = some d) (hij : j ∉ (t.tree.preorder i).map (·.1))
    (hji : i ∉ (t.tree.preorder j).map (·.1))
    (hv : ∀ x ∈ listed (t.tree.preorder i), x ∈ listed (t.tree.preorder j) →
      t.state.locals.get? x = none) : t.Independent i j where
  left := fun h => hij (List.mem_map_of_mem ((Tree.mem_preorder_iff ht.tree.tree hb).mpr ⟨h, hd⟩))
  right := fun h => hji (List.mem_map_of_mem ((Tree.mem_preorder_iff ht.tree.tree hd).mpr ⟨h, hb⟩))
  vars := by
    obtain ⟨o, -, hoi, hom, ho⟩ := Tree.preorder_of_live ht.tree.tree hb
    obtain ⟨q, -, hqj, hqm, hq⟩ := Tree.preorder_of_live ht.tree.tree hd
    rintro x hx ⟨hxi, hxj⟩
    rw [← hoi, ← hom.mem_listed_iff, ← ho] at hxi
    rw [← hqj, ← hqm.mem_listed_iff, ← hq] at hxj
    rw [Dict.contains, hv x hxi hxj] at hx
    cases hx

theorem render_commute (ht : t.Sound) (he : e.Pure) {a b : Text}
    (ha : t.tree.lookup a = .ok i) (hb : t.tree.lookup b = .ok j) (h : t.Independent i j)
    (log log' : CallLog) :
    ∃ (x y : Bool) (u : Template),
      (t.render e a log).1 = .ok x ∧
      ((t.render e a log).2.1.render e b (t.render e a log).2.2).1 = .ok y ∧
      ((t.render e a log).2.1.render e b (t.render e a log).2.2).2.1 = u ∧
      (t.render e b log').1 = .ok y ∧
      ((t.render e b log').2.1.render e a (t.render e b log').2.2).1 = .ok x ∧
      ((t.render e b log').2.1.render e a (t.render e b log').2.2).2.1 = u := by
  obtain ⟨c, hc, -⟩ := Tree.get?_of_find? (Tree.lookup_eq_ok_iff.mp ha)
  obtain ⟨d, hd, -⟩ := Tree.get?_of_find? (Tree.lookup_eq_ok_iff.mp hb)
  obtain ⟨p, hp, hpi, hpm, -⟩ := Tree.preorder_of_live ht.tree.tree hc
  obtain ⟨q, hq, hqj, hqm, -⟩ := Tree.preorder_of_live ht.tree.tree hd
  have hapart := h.outlines ht hpm hqm hpi hqj
  have hpn := hpm.nodup_preorder ht.tree.tree
  have hqn := hqm.nodup_preorder ht.tree.tree
  rw [show t.render e a log = _ from render_of_outline ha hp t.state log,
    show t.render e b log' = _ from render_of_outline hb hq t.state log']
  simp only [render_of_outline ha hp, render_of_outline hb hq]
  refine ⟨_, _, _, rfl, rfl, rfl, ?_, ?_, ?_⟩
  · exact congrArg Except.ok (Pass.run_after he hapart.symm hpn log _ log').1.symm
  · exact congrArg Except.ok (Pass.run_after he hapart hqn log' _ log).1
  · exact congrArg (fun s => { t with state := s })
      (Pass.run_commute he hapart hpn hqn log _ log' _).symm

end Template

namespace Session

open Template

/--
Whatever was done before: two blocks of which neither is an ancestor of the other, with no set local
variable listed below both, are rendered alike in both orders, and the templates reached are equal.
-/
theorem renders_commute (fs : Files) (e₀ : Engine) (ops : List Operation) {e : Engine}
    (he : e.Pure) {a b : Text} {i j : BlockId}
    (ha : ((start fs).run e₀ ops).template.tree.lookup a = .ok i)
    (hb : ((start fs).run e₀ ops).template.tree.lookup b = .ok j)
    (h : ((start fs).run e₀ ops).template.Independent i j) (log log' : CallLog) :
    let t := ((start fs).run e₀ ops).template
    let ab := (t.render e a log).2.1.render e b (t.render e a log).2.2
    let ba := (t.render e b log').2.1.render e a (t.render e b log').2.2
    ∃ (x y : Bool) (u : Template),
      (t.render e a log).1 = .ok x ∧ ab.1 = .ok y ∧ ab.2.1 = u ∧
      (t.render e b log').1 = .ok y ∧ ba.1 = .ok x ∧ ba.2.1 = u :=
  render_commute (sound_run e₀ Template.sound_empty ops) he ha hb h log log'

def twinSource : Text :=
  ("<!-- BEGIN a -->\x7bx\x7dfunc_u('\x7bg\x7d')" ++
    "<!-- BEGIN c -->\x7by\x7d<!-- END c --><!-- END a -->" ++
    "<!-- BEGIN b -->\x7bz\x7dfunc_u('\x7bg\x7d')" ++
    "<!-- BEGIN d -->\x7bw\x7d<!-- END d --><!-- END b -->").toList

def twinSteps : List Operation :=
  [.compile twinSource, .setGlobals (some ['g']) (.text ['&']), .setLocals (some ['x']) (.text ['0']),
    .setLocals (some ['y']) (.text ['1']), .setLocals (some ['w']) (.text ['2']), .hideBlock ['c'],
    .touchBlock ['b']]

theorem renders_commute_twins :
    let t := ((start .empty).run .standard twinSteps).template
    let ab := (t.render .standard ['a'] []).2.1.render .standard ['b'] (t.render .standard ['a'] []).2.2
    let ba := (t.render .standard ['b'] []).2.1.render .standard ['a'] (t.render .standard ['b'] []).2.2
    t.Independent 2 4 ∧
    ab.2.1.state.outputs.entries = [(2, "0%26".toList), (4, "\x7bz\x7d%262".toList)] ∧
    ∃ (x y : Bool) (u : Template),
      (t.render .standard ['a'] []).1 = .ok x ∧ ab.1 = .ok y ∧ ab.2.1 = u ∧
      (t.render .standard ['b'] []).1 = .ok y ∧ ba.1 = .ok x ∧ ba.2.1 = u := by
  have hsound := sound_run .standard (s := start .empty) Template.sound_empty twinSteps
  -- The steps are run once for all facts about the template.
  have htwins : ∀ t ∈ [((start .empty).run .standard twinSteps).template],
      t.tree.find? ['a'] = some 2 ∧ t.tree.find? ['b'] = some 4 ∧
      4 ∉ (t.tree.preorder 2).map (·.1) ∧ 2 ∉ (t.tree.preorder 4).map (·.1) ∧
      (∀ x ∈ listed (t.tree.preorder 2), x ∈ listed (t.tree.preorder 4) →
        t.state.locals.get? x = none) ∧
      ((t.render .standard ['a'] []).2.1.render .standard ['b']
        (t.render .standard ['a'] []).2.2).2.1.state.outputs.entries =
          [(2, "0%26".toList), (4, "\x7bz\x7d%262".toList)] := by decide +kernel
  obtain ⟨hfa, hfb, hleft, hright, hvars, houtputs⟩ := htwins _ List.mem_cons_self
  have ha := Tree.lookup_eq_ok_iff.mpr hfa
  have hb := Tree.lookup_eq_ok_iff.mpr hfb
  obtain ⟨c, hc, -⟩ := Tree.get?_of_find? hfa
  obtain ⟨d, hd, -⟩ := Tree.get?_of_find? hfb
  have hindependent := independent_of_preorder hsound hc hd hleft hright hvars
  exact ⟨hindependent, houtputs,
    renders_commute .empty .standard twinSteps Engine.pure_standard ha hb hindependent [] []⟩

end Session

end BlockTemplate
