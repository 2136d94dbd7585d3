import BlockTemplate.Proofs.Render.Plan
import BlockTemplate.Proofs.Template.Session

/-!
# Protected data is inert

Whatever is set, rendered and handed out, texts that are set are found in the output as they were
set. What is around them, and where they stand, is the same for all texts that are not empty.
-/

namespace BlockTemplate

theorem Tree.get?_of_mem_outlineTo {T : Tree} {depth : Nat} {id : BlockId} {o : Outline}
    (ho : T.outlineTo depth id = some o) {x : BlockId × Block} (hx : x ∈ o.preorder) :
    T.get? x.1 = some x.2 := by
  induction depth generalizing id o with
  | zero => cases ho
  | succ depth ih =>
    obtain ⟨b, hb, rfl⟩ := Option.map_eq_some_iff.mp ho
    rcases List.mem_cons.mp hx with rfl | hx
    · exact hb
    · obtain ⟨o, ho, hx⟩ := Outline.mem_preorderAll.mp hx
      obtain ⟨i, -, hi⟩ := List.mem_filterMap.mp ho
      exact ih hi hx

theorem Course.quiet_of_plain {T : Tree}
    (h : ∀ o ∈ T.slots, ∀ b ∈ o, b.calls = [] ∧ Page.plainArgument b.content = true) {id : BlockId}
    {b : Block} (hb : T.get? id = some b) : Quiet b := by
  obtain ⟨hcalls, hplain⟩ := h _ (List.mem_of_getElem? (Tree.get?_eq_some_iff.mp hb)) b rfl
  exact ⟨hcalls, Page.braced_of_plain hplain⟩

namespace Template

variable {T : Tree} {e : Engine} {values : Nat → Text} {g : Plan} {t : Template}

structure Planned (T : Tree) (values : Nat → Text) (g : Plan) (t : Template) : Prop where
  tree : t.tree = T
  state : g.Fits values t.state

theorem exists_mark (name : Text) (m : Mark) (g : Plan) :
    ∃ g', ∀ values t, Planned T values g t →
      Planned T values g' (t.onBlock name fun id => { t with state := t.state.mark id m }).2 := by
  cases hid : T.lookup name with
  | error fault =>
    refine ⟨g, fun values t h => ?_⟩
    rw [onBlock, h.tree, hid]
    exact h
  | ok id =>
    refine ⟨g.withMarks (g.marks.insert id m), fun values t h => ?_⟩
    rw [onBlock, h.tree, hid]
    exact ⟨rfl, h.state.mark id m⟩

theorem exists_renderAt (hd : e.dialect = .standard) (hp : e.options.preserveData = true)
    (hq : ∀ id b, T.get? id = some b → Course.Quiet b) (id : BlockId) (g : Plan) :
    ∃ g', ∀ values t log, (∀ n, values n ≠ []) → Planned T values g t →
      Planned T values g' (t.renderAt e id log).2.1 := by
  cases ho : T.outline? id with
  | none =>
    refine ⟨g, fun values t log _ h => ?_⟩
    rw [renderAt, h.tree, ho]
    exact h
  | some o =>
    have hquiet : ∀ x ∈ o.preorder, Course.Quiet x.2 := fun x hx =>
      hq x.1 x.2 (Tree.get?_of_mem_outlineTo ho hx)
    obtain ⟨_, c, hc⟩ := Course.exists_block hd hp T.calls false false o hquiet ⟨g, fun _ => none⟩
    refine ⟨c.plan, fun values t log hv h => ?_⟩
    rw [renderAt, h.tree, ho]
    exact ⟨rfl, (hc values ⟨t.state, ∅, log⟩ hv ⟨h.state, fun _ => rfl⟩).2.plan⟩

theorem finish_write (hd : e.dialect = .standard) (hp : e.options.preserveData = true)
    (hr : e.options.removeUnknown = true) (is : List Ink) :
    finish e (Ink.write values is) = Datum.join values (Ink.shown is) := by
  rw [finish, hp, hr, hd]
  exact Ink.unprotect_strip_write is

theorem exists_outputAt (hd : e.dialect = .standard) (hp : e.options.preserveData = true)
    (hr : e.options.removeUnknown = true) (hq : ∀ id b, T.get? id = some b → Course.Quiet b)
    (id : BlockId) (g : Plan) :
    ∃ (form : List Datum) (g' : Plan), ∀ values t log, (∀ n, values n ≠ []) →
      Planned T values g t → (t.outputAt e id log).1 = Datum.join values form ∧
        Planned T values g' (t.outputAt e id log).2.1 := by
  by_cases hroot : id = rootId ∧ g.rootRendered = false
  · obtain ⟨g', hg'⟩ := exists_renderAt hd hp hq id g
    refine ⟨Ink.shown (g'.outputs id), g', fun values t log hv h => ?_⟩
    have hrender := hg' values t log hv h
    rw [outputAt, h.state.rootRendered, if_pos hroot]
    dsimp only
    rw [hrender.state.outputs, finish_write hd hp hr]
    exact ⟨rfl, hrender⟩
  · refine ⟨Ink.shown (g.outputs id), g, fun values t log _ h => ?_⟩
    rw [outputAt, h.state.rootRendered, if_neg hroot]
    dsimp only
    rw [h.state.outputs, finish_write hd hp hr]
    exact ⟨rfl, h⟩

end Template

/-- A step of a session that sets a text, or that renders, marks or hands out a block. -/
inductive DataStep where
  | setLocal (name : Text)
  | setGlobal (name : Text)
  | touch (block : Text)
  | hide (block : Text)
  | render (block : Text)
  | output (block : Text)
  | takeOutput (block : Text)

namespace DataStep

def operation (v : Text) : DataStep → Operation
  | setLocal name => .setLocals (some name) (.text v)
  | setGlobal name => .setGlobals (some name) (.text v)
  | touch block => .touchBlock block
  | hide block => .hideBlock block
  | render block => .render block
  | output block => .output block
  | takeOutput block => .takeOutput block

def operations (values : Nat → Text) : (n : Nat) → List DataStep → List Operation
  | _, [] => []
  | n, step :: steps => step.operation (values n) :: operations values (n + 1) steps

end DataStep

namespace Session

open Template

def handedOut (e : Engine) (s : Session) : Operation → List (Except Fault Text)
  | .output block => [(s.template.output e block s.log).1]
  | .takeOutput block => [(s.template.takeOutput e block s.log).1]
  | .renderWith block v => [(s.template.renderWith e block v s.log).1]
  | _ => []

def outputs (e : Engine) (s : Session) : List Operation → List (Except Fault Text)
  | [] => []
  | op :: ops => s.handedOut e op ++ outputs e (s.apply e op) ops

variable {T : Tree} {e : Engine}

theorem exists_step (hd : e.dialect = .standard) (hp : e.options.preserveData = true)
    (hr : e.options.removeUnknown = true) (hq : ∀ id b, T.get? id = some b → Course.Quiet b)
    (n : Nat) (step : DataStep) (g : Plan) :
    ∃ (forms : List (Except Fault (List Datum))) (g' : Plan),
      ∀ values (s : Session), (∀ n, values n ≠ []) → Planned T values g s.template →
        s.handedOut e (step.operation (values n)) = forms.map (Except.map (Datum.join values)) ∧
          Planned T values g' (s.apply e (step.operation (values n))).template := by
  -- The next plan is chosen before the values are known, so it may not depend on them.
  cases step with
  | setLocal name =>
    refine ⟨[], { g with locals := Function.update g.locals name (some (.step n)) },
      fun values s _ h => ⟨rfl, h.tree, ?_⟩⟩
    exact ⟨Course.get?_insert_update h.state.locals name (.step n), h.state.globals,
      h.state.outputs, h.state.marks, h.state.rootRendered⟩
  | setGlobal name =>
    refine ⟨[], { g with globals := Function.update g.globals name (some (.step n)) },
      fun values s _ h => ⟨rfl, h.tree, ?_⟩⟩
    exact ⟨h.state.locals, Course.get?_insert_update h.state.globals name (.step n),
      h.state.outputs, h.state.marks, h.state.rootRendered⟩
  | touch block =>
    obtain ⟨g', hg'⟩ := exists_mark (T := T) block .touched g
    exact ⟨[], g', fun values s _ h => ⟨rfl, hg' values s.template h⟩⟩
  | hide block =>
    obtain ⟨g', hg'⟩ := exists_mark (T := T) block .hidden g
    exact ⟨[], g', fun values s _ h => ⟨rfl, hg' values s.template h⟩⟩
  | render block =>
    cases hid : T.lookup block with
    | error fault =>
      refine ⟨[], g, fun values s _ h => ⟨rfl, ?_⟩⟩
      simpa only [DataStep.operation, apply, rendered, Template.render, h.tree, hid] using h
    | ok id =>
      obtain ⟨g', hg'⟩ := exists_renderAt hd hp hq id g
      refine ⟨[], g', fun values s hv h => ⟨rfl, ?_⟩⟩
      simpa only [DataStep.operation, apply, rendered, Template.render, h.tree, hid]
        using hg' values s.template s.log hv h
  | output block =>
    cases hid : T.lookup block with
    | error fault =>
      refine ⟨[.error fault], g, fun values s _ h => ?_⟩
      simpa only [DataStep.operation, apply, rendered, handedOut, Template.output, h.tree, hid]
        using ⟨rfl, h⟩
    | ok id =>
      obtain ⟨form, g', hg'⟩ := exists_outputAt hd hp hr hq id g
      refine ⟨[.ok form], g', fun values s hv h => ?_⟩
      obtain ⟨hform, hrest⟩ := hg' values s.template s.log hv h
      simp only [DataStep.operation, apply, rendered, handedOut, Template.output, h.tree, hid,
        hform]
      exact ⟨rfl, hrest⟩
  | takeOutput block =>
    cases hid : T.lookup block with
    | error fault =>
      refine ⟨[.error fault], g, fun values s _ h => ?_⟩
      simpa only [DataStep.operation, apply, rendered, handedOut, Template.takeOutput, h.tree, hid]
        using ⟨rfl, h⟩
    | ok id =>
      obtain ⟨form, g', hg'⟩ := exists_outputAt hd hp hr hq id g
      refine ⟨[.ok form], g'.withOutput id [], fun values s hv h => ?_⟩
      obtain ⟨hform, hrest⟩ := hg' values s.template s.log hv h
      simp only [DataStep.operation, apply, rendered, handedOut, Template.takeOutput, h.tree, hid,
        hform]
      exact ⟨rfl, hrest.tree, hrest.state.clearOutput id⟩

theorem exists_outputs (hd : e.dialect = .standard) (hp : e.options.preserveData = true)
    (hr : e.options.removeUnknown = true) (hq : ∀ id b, T.get? id = some b → Course.Quiet b)
    (n : Nat) (steps : List DataStep) (g : Plan) :
    ∃ forms : List (Except Fault (List Datum)), ∀ values (s : Session), (∀ n, values n ≠ []) →
      Planned T values g s.template → s.outputs e (DataStep.operations values n steps) =
        forms.map (Except.map (Datum.join values)) := by
  induction steps generalizing n g with
  | nil => exact ⟨[], fun _ _ _ _ => rfl⟩
  | cons step steps ih =>
    obtain ⟨first, g', hfirst⟩ := exists_step hd hp hr hq n step g
    obtain ⟨others, hothers⟩ := ih (n + 1) g'
    refine ⟨first ++ others, fun values s hv h => ?_⟩
    obtain ⟨hout, hnext⟩ := hfirst values s hv h
    rw [DataStep.operations, outputs, hout, hothers values _ hv hnext, List.map_append]

/--
With data protected and unknown placeholders removed, take a template without calls in which every
opening brace of its blocks begins a placeholder, and every one of the output it has collected
begins a placeholder or marks a protected brace. Then what a run of steps hands out is one form for
all texts that the steps set, empty ones aside: pieces that are known and the texts, as they are.
-/
theorem data_inert {s : Session} (hd : e.dialect = .standard)
    (hp : e.options.preserveData = true) (hr : e.options.removeUnknown = true)
    (hq : ∀ id b, s.template.tree.get? id = some b → b.calls = [] ∧ Page.Braced b.content)
    (ht : ∀ id, Ink.Tidy (s.template.state.output id)) (steps : List DataStep) :
    ∃ forms : List (Except Fault (List Datum)), ∀ values : Nat → Text, (∀ n, values n ≠ []) →
      s.outputs e (DataStep.operations values 0 steps) =
        forms.map (Except.map (Datum.join values)) := by
  obtain ⟨g, hg⟩ := Plan.exists_fits ht
  obtain ⟨forms, hforms⟩ := exists_outputs hd hp hr hq 0 steps g
  exact ⟨forms, fun values hv => hforms values s hv ⟨rfl, hg values⟩⟩

def protecting : Engine := { Engine.standard with options := { preserveData := true } }

def nestedVariables : Text :=
  "{u}<!-- BEGIN a -->[{v}<!-- BEGIN b -->({w})<!-- END b -->{u}]<!-- END a -->{w}".toList

def nestedDataSteps : List DataStep :=
  [.setLocal ['w'], .render ['b'], .setLocal ['v'], .render ['a'], .output ['a'], .setGlobal ['u'],
    .output rootName, .setLocal ['w'], .render rootName, .takeOutput rootName]

def hostileValues (n : Nat) : Text :=
  if n = 0 then "{v}{%preserved%}".toList
  else if n = 2 then "\x7b\x7b__b__\x7d".toList
  else if n = 5 then "%preserved%\x7d\x7bw\x7d\x7b".toList
  else "{u}".toList

theorem data_inert_nested :
    let s := (start .empty).run protecting [.compile nestedVariables]
    s.outputs protecting (DataStep.operations hostileValues 0 nestedDataSteps) =
      [.ok "[\x7b\x7b__b__\x7d(\x7bv\x7d\x7b%preserved%\x7d)]".toList,
        .ok ("%preserved%\x7d\x7bw\x7d\x7b[\x7b\x7b__b__\x7d(\x7bv\x7d\x7b%preserved%\x7d)" ++
          "%preserved%\x7d\x7bw\x7d\x7b]").toList,
        .ok ("%preserved%\x7d\x7bw\x7d\x7b[\x7b\x7b__b__\x7d(\x7bv\x7d\x7b%preserved%\x7d)" ++
          "%preserved%\x7d\x7bw\x7d\x7b]%preserved%\x7d\x7bw\x7d\x7b\x7bu\x7d").toList] ∧
    ∃ forms : List (Except Fault (List Datum)), ∀ values : Nat → Text, (∀ n, values n ≠ []) →
      s.outputs protecting (DataStep.operations values 0 nestedDataSteps) =
        forms.map (Except.map (Datum.join values)) := by
  have hslots :
      ∀ o ∈ ((start .empty).run protecting [.compile nestedVariables]).template.tree.slots,
        ∀ b ∈ o, b.calls = [] ∧ Page.plainArgument b.content = true := by decide +kernel
  have hstate : ((start .empty).run protecting [.compile nestedVariables]).template.state = {} := by
    decide +kernel
  refine ⟨by decide +kernel, data_inert rfl rfl rfl ?_ ?_ nestedDataSteps⟩
  · exact fun _ _ => Course.quiet_of_plain hslots
  · intro id
    rw [hstate]
    exact Ink.tidy_nil

theorem length_join_le {u v : Nat → Text} (h : ∀ n, (u n).length ≤ (v n).length)
    (form : List Datum) : (Datum.join u form).length ≤ (Datum.join v form).length := by
  induction form with
  | nil => exact Nat.le_refl _
  | cons d form ih =>
    have hd : (d.text u).length ≤ (d.text v).length := by
      cases d with
      | known t => exact Nat.le_refl _
      | step n => exact h n
    simp only [Datum.join, List.flatMap_cons, List.length_append] at ih ⊢
    omega

def keptBraceSteps : List Operation :=
  [.compile "<!-- BEGIN b -->a\x7b<!-- END b -->".toList, .touchBlock ['b'], .render ['b'],
    .replaceBlock ['b'] "{v}".toList true]

/-- Output that was collected from other content may end in a brace that data completes. -/
theorem kept_brace_reads_data :
    let s := (start .empty).run protecting keptBraceSteps
    let steps := [DataStep.setLocal ['v'], .render ['b'], .output ['b']]
    (∀ id b, s.template.tree.get? id = some b → b.calls = [] ∧ Page.Braced b.content) ∧
    s.outputs protecting (DataStep.operations (fun _ => "y\x7d".toList) 0 steps) = [.ok ['a']] ∧
    s.outputs protecting (DataStep.operations (fun _ => ['z']) 0 steps) =
      [.ok "a\x7bz".toList] ∧
    ¬ ∃ forms : List (Except Fault (List Datum)), ∀ values : Nat → Text, (∀ n, values n ≠ []) →
      s.outputs protecting (DataStep.operations values 0 steps) =
        forms.map (Except.map (Datum.join values)) := by
  have hslots : ∀ o ∈ ((start .empty).run protecting keptBraceSteps).template.tree.slots,
      ∀ b ∈ o, b.calls = [] ∧ Page.plainArgument b.content = true := by decide +kernel
  have hlong : ((start .empty).run protecting keptBraceSteps).outputs protecting
      (DataStep.operations (fun _ => "y\x7d".toList) 0
        [DataStep.setLocal ['v'], .render ['b'], .output ['b']]) = [.ok ['a']] := by decide +kernel
  have hshort : ((start .empty).run protecting keptBraceSteps).outputs protecting
      (DataStep.operations (fun _ => ['z']) 0
        [DataStep.setLocal ['v'], .render ['b'], .output ['b']]) =
      [.ok "a\x7bz".toList] := by decide +kernel
  refine ⟨fun _ _ => Course.quiet_of_plain hslots, hlong, hshort, ?_⟩
  -- The form would give a shorter text for the longer value.
  rintro ⟨forms, hforms⟩
  have hlongForm := hforms (fun _ => "y\x7d".toList) (fun _ => by decide)
  have hshortForm := hforms (fun _ => ['z']) (fun _ => by decide)
  rw [hlong] at hlongForm
  rw [hshort] at hshortForm
  obtain ⟨form, rfl, hform⟩ := List.map_eq_singleton_iff.mp hlongForm.symm
  cases form with
  | error fault => cases hform
  | ok form =>
    have hle := length_join_le (u := fun _ => ['z']) (v := fun _ => "y\x7d".toList)
      (fun _ => by decide) form
    rw [Except.ok.inj hform, ← Except.ok.inj (List.cons.inj hshortForm).1] at hle
    exact absurd hle (by decide)

end Session

end BlockTemplate
