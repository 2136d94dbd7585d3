import BlockTemplate.Proofs.Render.Ink
import BlockTemplate.Proofs.Render.Effect
import Mathlib.Logic.Function.Basic

/-!
# Renders that protect data

What a render does is decided by which variables are set and by which outputs are empty. With data
protected neither depends on what the data is, as long as no step sets an empty text. So a state is
described by a plan, which refers to the data by number, and a render goes from plan to plan: each
lemma gives the new plan before the data is known.
-/

namespace BlockTemplate

/-- A state in which data is referred to by number. -/
structure Plan where
  locals : Text → Option Datum
  globals : Text → Option Datum
  outputs : BlockId → List Ink
  marks : Dict BlockId Mark
  rootRendered : Bool

namespace Plan

variable {values : Nat → Text} {g : Plan} {s : State}

structure Fits (values : Nat → Text) (g : Plan) (s : State) : Prop where
  locals : ∀ x, s.locals.get? x = (g.locals x).map (Datum.text values)
  globals : ∀ x, s.globals.get? x = (g.globals x).map (Datum.text values)
  outputs : ∀ id, s.output id = Ink.write values (g.outputs id)
  marks : s.marks = g.marks
  rootRendered : s.rootRendered = g.rootRendered

def isHidden (g : Plan) (id : BlockId) : Bool := g.marks.get? id = some .hidden

def isTouched (g : Plan) (id : BlockId) : Bool := g.marks.get? id = some .touched

theorem Fits.isHidden (h : g.Fits values s) (id : BlockId) : s.isHidden id = g.isHidden id := by
  rw [State.isHidden, h.marks, Plan.isHidden]

theorem Fits.isTouched (h : g.Fits values s) (id : BlockId) : s.isTouched id = g.isTouched id := by
  rw [State.isTouched, h.marks, Plan.isTouched]

def withOutput (g : Plan) (id : BlockId) (is : List Ink) : Plan :=
  { g with outputs := Function.update g.outputs id is }

theorem Fits.withOutput (h : g.Fits values s) {id : BlockId} {is : List Ink}
    {outputs : Dict BlockId Text} (hout : ∀ x, ({ s with outputs := outputs } : State).output x =
      if x = id then Ink.write values is else s.output x) :
    (g.withOutput id is).Fits values { s with outputs := outputs } where
  locals := h.locals
  globals := h.globals
  outputs := by
    intro x
    change _ = Ink.write values (Function.update g.outputs id is x)
    rw [hout, Function.update_apply]
    by_cases hx : x = id
    · rw [if_pos hx, if_pos hx]
    · rw [if_neg hx, if_neg hx, h.outputs]
  marks := h.marks
  rootRendered := h.rootRendered

theorem Fits.append (h : g.Fits values s) (id : BlockId) (is : List Ink) :
    (g.withOutput id (g.outputs id ++ is)).Fits values (s.append id (Ink.write values is)) := by
  apply h.withOutput
  intro x
  refine (s.output_append id x _).trans ?_
  by_cases hx : x = id
  · rw [if_pos hx, if_pos hx, hx, Ink.write_append, h.outputs]
  · rw [if_neg hx, if_neg hx]

theorem Fits.clearOutput (h : g.Fits values s) (id : BlockId) :
    (g.withOutput id []).Fits values (s.clearOutput id) := by
  apply h.withOutput
  exact fun x => s.output_clearOutput id x

def withMarks (g : Plan) (marks : Dict BlockId Mark) : Plan := { g with marks := marks }

theorem Fits.unmark (h : g.Fits values s) (id : BlockId) :
    (g.withMarks (g.marks.erase id)).Fits values (s.unmark id) :=
  ⟨h.locals, h.globals, h.outputs, congrArg (Dict.erase · id) h.marks, h.rootRendered⟩

theorem Fits.mark (h : g.Fits values s) (id : BlockId) (m : Mark) :
    (g.withMarks (g.marks.insert id m)).Fits values (s.mark id m) :=
  ⟨h.locals, h.globals, h.outputs, congrArg (Dict.insert · id m) h.marks, h.rootRendered⟩

theorem exists_fits (h : ∀ id, Ink.Tidy (s.output id)) : ∃ g : Plan, ∀ values, g.Fits values s := by
  choose outputs houtputs using fun id => Ink.exists_write (h id)
  refine ⟨⟨fun x => (s.locals.get? x).map .known, fun x => (s.globals.get? x).map .known, outputs,
    s.marks, s.rootRendered⟩, fun values => ⟨fun x => ?_, fun x => ?_, fun id => ?_, rfl, rfl⟩⟩
  · cases hx : s.locals.get? x <;> simp [hx, Datum.text]
  · cases hx : s.globals.get? x <;> simp [hx, Datum.text]
  · exact (houtputs id values).symm

end Plan

structure Course where
  plan : Plan
  values : Text → Option Datum

namespace Course

open Pass (takeLocals addGlobals emits emit block blocks substitute)

variable {values : Nat → Text} {c : Course} {p : Pass} {e : Engine}

structure Fits (values : Nat → Text) (c : Course) (p : Pass) : Prop where
  plan : c.plan.Fits values p.state
  values : ∀ x, p.values.get? x = (c.values x).map (Datum.text values)

theorem Fits.withPlan (h : c.Fits values p) {g : Plan} {s : State} (hs : g.Fits values s) :
    { c with plan := g }.Fits values { p with state := s } := ⟨hs, h.values⟩

theorem get?_insert_update {α β : Type} {d : Dict Text β} {f : Text → Option α} {w : α → β}
    (h : ∀ x, d.get? x = (f x).map w) (name : Text) (v : α) (x : Text) :
    (d.insert name (w v)).get? x = (Function.update f name (some v) x).map w := by
  rw [Dict.get?_insert, Function.update_apply]
  by_cases hx : x = name
  · rw [if_pos hx, if_pos hx, Option.map_some]
  · rw [if_neg hx, if_neg hx, h]

theorem get?_erase_update {α β : Type} {d : Dict Text β} {f : Text → Option α} {w : α → β}
    (h : ∀ x, d.get? x = (f x).map w) (name x : Text) :
    (d.erase name).get? x = (Function.update f name none x).map w := by
  rw [Function.update_apply]
  by_cases hx : x = name
  · rw [if_pos hx, hx, Dict.get?_erase_self, Option.map_none]
  · rw [if_neg hx, Dict.get?_erase_ne _ hx, h]

theorem exists_enter (c : Course) (id : BlockId) : ∃ c' : Course, ∀ values p, c.Fits values p →
    c'.Fits values (p.enter id) := by
  by_cases hid : id = rootId
  · refine ⟨{ c with plan := { c.plan with rootRendered := true } }, fun values p h => ?_⟩
    rw [Pass.enter, if_pos hid]
    exact h.withPlan ⟨h.plan.locals, h.plan.globals, h.plan.outputs, h.plan.marks, rfl⟩
  · refine ⟨c, fun values p h => ?_⟩
    rw [Pass.enter, if_neg hid]
    exact h

theorem exists_takeLocals (names : List Text) (c : Course) :
    ∃ (own : Bool) (c' : Course), ∀ values p, c.Fits values p →
      (takeLocals names p).1 = own ∧ c'.Fits values (takeLocals names p).2 := by
  induction names generalizing c with
  | nil => exact ⟨false, c, fun _ _ h => ⟨rfl, h⟩⟩
  | cons name names ih =>
    cases hv : c.plan.locals name with
    | none =>
      obtain ⟨own, c', hc'⟩ := ih c
      refine ⟨own, c', fun values p h => ?_⟩
      have hnone := h.plan.locals name
      rw [hv, Option.map_none] at hnone
      rw [takeLocals, hnone]
      exact hc' values p h
    | some v =>
      obtain ⟨own, c', hc'⟩ := ih
        { plan := { c.plan with locals := Function.update c.plan.locals name none }
          values := Function.update c.values name (some v) }
      refine ⟨true, c', fun values p h => ?_⟩
      have hsome := h.plan.locals name
      rw [hv, Option.map_some] at hsome
      rw [takeLocals, hsome]
      have hplan : { c.plan with locals := Function.update c.plan.locals name none }.Fits values
          { p.state with locals := p.state.locals.erase name } :=
        ⟨get?_erase_update h.plan.locals name, h.plan.globals, h.plan.outputs, h.plan.marks,
          h.plan.rootRendered⟩
      exact ⟨rfl, (hc' values { p with
        state := { p.state with locals := p.state.locals.erase name }
        values := p.values.insert name (v.text values) }
          ⟨hplan, get?_insert_update h.values name v⟩).2⟩

theorem exists_addGlobals (names : List Text) (c : Course) :
    ∃ c' : Course, ∀ values p, c.Fits values p → c'.Fits values (addGlobals names p) := by
  induction names generalizing c with
  | nil => exact ⟨c, fun _ _ h => h⟩
  | cons name names ih =>
    cases hv : c.plan.globals name with
    | none =>
      obtain ⟨c', hc'⟩ := ih c
      refine ⟨c', fun values p h => ?_⟩
      have hnone := h.plan.globals name
      rw [hv, Option.map_none] at hnone
      rw [addGlobals, hnone]
      exact hc' values p h
    | some v =>
      obtain ⟨c', hc'⟩ := ih
        { c with values := Function.update c.values name (some v) }
      refine ⟨c', fun values p h => ?_⟩
      have hsome := h.plan.globals name
      rw [hv, Option.map_some] at hsome
      rw [addGlobals, hsome]
      exact hc' values { p with values := p.values.insert name (v.text values) }
        ⟨h.plan, get?_insert_update h.values name v⟩

def Parts (values : Nat → Text) (f : Text → Option (List Ink)) (parts : Pool) : Prop :=
  ∀ x, parts.get? x = (f x).map (Ink.write values)

theorem Parts.insert {f : Text → Option (List Ink)} {parts : Pool} (h : Parts values f parts)
    (name : Text) (is : List Ink) :
    Parts values (Function.update f name (some is)) (parts.insert name (Ink.write values is)) :=
  get?_insert_update h name is

theorem Parts.splice {f : Text → Option (List Ink)} {parts : Pool} (h : Parts values f parts)
    (is : List Ink) : Dialect.standard.splice parts.get? (Ink.write values is) =
      Ink.write values (Ink.fill f is) := by
  rw [← Ink.splice_write, show parts.get? = _ from funext h]

theorem Fits.substitute (hd : e.dialect = .standard) (hp : e.options.preserveData = true)
    (h : c.Fits values p) (is : List Ink) :
    Pass.substitute e p.values (Ink.write values is) =
      Ink.write values (Ink.fill (fun x => (c.values x).map fun v => [.data v]) is) := by
  rw [← Ink.splice_write, Pass.substitute, hd, hp]
  congr 1
  funext name
  rw [h.values, Option.map_map, Option.map_map]
  congr 1
  funext v
  exact (List.append_nil _).symm

/-- A block as renders that protect data take it: without calls, and tidy. -/
def Quiet (b : Block) : Prop := b.calls = [] ∧ Page.Braced b.content

theorem exists_emit (hd : e.dialect = .standard) (hp : e.options.preserveData = true)
    (table : CallTable) (inner : Bool) (id : BlockId) {b : Block} (hb : Quiet b)
    (f : Text → Option (List Ink)) (c : Course) :
    ∃ c' : Course, ∀ values p parts, c.Fits values p → Parts values f parts →
      c'.Fits values (emit e table inner id b parts p) := by
  obtain ⟨is, his⟩ := Ink.exists_write (Ink.tidy_of_braced hb.2)
  let content := if inner then Ink.fill f is
    else Ink.fill (fun x => (c.values x).map fun v => [.data v]) (Ink.fill f is)
  let out := c.plan.withOutput id (c.plan.outputs id ++ content)
  refine ⟨{ c with plan := if c.plan.isTouched id then out.withMarks (out.marks.erase id)
    else out }, fun values p parts h hparts => ?_⟩
  have hcontent : (if inner then e.dialect.splice parts.get? b.content
      else Pass.substitute e p.values (e.dialect.splice parts.get? b.content)) =
      Ink.write values content := by
    rw [hd, ← his values, hparts.splice]
    by_cases hi : inner = true
    · simp only [content, if_pos hi]
    · simp only [content, if_neg hi]
      exact h.substitute hd hp _
  have hout : out.Fits values (p.state.append id (Ink.write values content)) :=
    h.plan.append id content
  rw [emit, hb.1]
  dsimp only [Pass.evaluateAll]
  rw [hcontent]
  refine ⟨?_, h.values⟩
  dsimp only
  rw [hout.isTouched]
  change Plan.Fits values _ (if c.plan.isTouched id then _ else _)
  by_cases ht : c.plan.isTouched id = true
  · rw [if_pos ht, if_pos ht]
    exact hout.unmark id
  · rw [if_neg ht, if_neg ht]
    exact hout

theorem Fits.emits (h : c.Fits values p) (id : BlockId) (isEmpty : Bool) :
    Pass.emits e p.state id isEmpty =
      (!isEmpty || id == rootId || !e.options.removeEmpty || c.plan.isTouched id) := by
  rw [Pass.emits, h.plan.isTouched]

mutual

theorem exists_block (hd : e.dialect = .standard) (hp : e.options.preserveData = true)
    (table : CallTable) (inner silent : Bool) (o : Outline) (ho : ∀ x ∈ o.preorder, Quiet x.2)
    (c : Course) : ∃ (isEmpty : Bool) (c' : Course), ∀ values p, (∀ n, values n ≠ []) →
      c.Fits values p → (block e table inner silent o p).1 = isEmpty ∧
        c'.Fits values (block e table inner silent o p).2 := by
  cases o with
  | node id b cs =>
    have hb : Quiet b := ho (id, b) List.mem_cons_self
    obtain ⟨c₁, h₁⟩ := exists_enter c id
    obtain ⟨own, c₂, h₂⟩ := exists_takeLocals b.vars c₁
    obtain ⟨full, f, c₃, h₃⟩ := exists_blocks hd hp table silent cs
      (fun x hx => ho x (List.mem_cons_of_mem _ hx)) false (fun _ => none) c₂
    obtain ⟨c₄, h₄⟩ := exists_addGlobals b.vars c₃
    obtain ⟨c₅, h₅⟩ := exists_emit hd hp table inner id hb f c₄
    let isEmpty := !(own || full)
    let loud := !isEmpty || id == rootId || !e.options.removeEmpty || c₄.plan.isTouched id
    refine ⟨isEmpty, if silent || !loud then c₄ else c₅, fun values p hv h => ?_⟩
    obtain ⟨hown, htaken⟩ := h₂ values _ (h₁ values p h)
    obtain ⟨hfull, hparts, hrest⟩ := h₃ values _ ∅ hv htaken fun _ => rfl
    have hadded := h₄ values _ hrest
    rw [block]
    dsimp only
    rw [hown, hfull, hadded.emits]
    change _ ∧ Fits values (if (silent || !loud) = true then c₄ else c₅) _
    by_cases hquiet : (silent || !loud) = true
    · rw [if_pos hquiet, if_pos hquiet]
      exact ⟨rfl, hadded⟩
    · rw [if_neg hquiet, if_neg hquiet]
      exact ⟨rfl, h₅ values _ _ hadded hparts⟩

theorem exists_blocks (hd : e.dialect = .standard) (hp : e.options.preserveData = true)
    (table : CallTable) (silent : Bool) (os : List Outline)
    (ho : ∀ x ∈ Outline.preorderAll os, Quiet x.2) (full : Bool) (f : Text → Option (List Ink))
    (c : Course) : ∃ (full' : Bool) (f' : Text → Option (List Ink)) (c' : Course),
      ∀ values p parts, (∀ n, values n ≠ []) → c.Fits values p → Parts values f parts →
        (blocks e table silent os full parts p).1 = full' ∧
          Parts values f' (blocks e table silent os full parts p).2.1 ∧
          c'.Fits values (blocks e table silent os full parts p).2.2 := by
  cases os with
  | nil => exact ⟨full, f, c, fun _ _ _ _ h hparts => ⟨rfl, hparts, h⟩⟩
  | cons o os =>
    have hfirst : ∀ x ∈ o.preorder, Quiet x.2 := fun x hx => ho x (List.mem_append_left _ hx)
    have hothers : ∀ x ∈ Outline.preorderAll os, Quiet x.2 :=
      fun x hx => ho x (List.mem_append_right _ hx)
    cases hide : c.plan.isHidden o.id with
    | true =>
      obtain ⟨_, c₁, h₁⟩ := exists_block hd hp table true true o hfirst c
      obtain ⟨full', f', c', h'⟩ := exists_blocks hd hp table silent os hothers full
        (Function.update f (childName o.block.name) (some []))
        { c₁ with plan := c₁.plan.withMarks (c₁.plan.marks.erase o.id) }
      refine ⟨full', f', c', fun values p parts hv h hparts => ?_⟩
      have hdone := (h₁ values p hv h).2
      rw [blocks]
      dsimp only
      rw [h.plan.isHidden, hide]
      exact h' values _ _ hv (hdone.withPlan (hdone.plan.unmark o.id))
        (hparts.insert (childName o.block.name) [])
    | false =>
      obtain ⟨_, c₁, h₁⟩ := exists_block hd hp table true silent o hfirst c
      let out := c₁.plan.outputs o.id
      obtain ⟨full', f', c', h'⟩ := exists_blocks hd hp table silent os hothers
        (full || !Ink.isVoid out)
        (Function.update f (childName o.block.name) (some out))
        { c₁ with plan := c₁.plan.withOutput o.id [] }
      refine ⟨full', f', c', fun values p parts hv h hparts => ?_⟩
      have hdone := (h₁ values p hv h).2
      -- Only here is anything asked of the data: whether an output is empty.
      have hfull : decide (Ink.write values out ≠ []) = !Ink.isVoid out := by
        simp [Ink.write_eq_nil_iff hv]
      rw [blocks]
      dsimp only
      rw [h.plan.isHidden, hide, if_neg Bool.false_ne_true, hdone.plan.outputs o.id, hfull]
      exact h' values _ _ hv (hdone.withPlan (hdone.plan.clearOutput o.id))
        (hparts.insert (childName o.block.name) out)

end

end Course

end BlockTemplate
