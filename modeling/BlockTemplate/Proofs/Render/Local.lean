import BlockTemplate.Proofs.Render.Effect

/-!
# What rendering reads

A render reads the local variables that its blocks list, the global variables, and what is kept for
its blocks. Two states that are alike in these lead to the same values and the same outputs, whatever
they hold elsewhere, and if no callback depends on earlier calls the log does not matter either.
-/

namespace BlockTemplate

theorem Engine.pure_standard : Engine.standard.Pure := by
  intro name c hc earlier earlier' args
  have hm := (Dict.get?_ofList (by simp)).mp hc
  simp only [List.mem_cons, List.not_mem_nil, or_false, Prod.mk.injEq] at hm
  rcases hm with ⟨-, rfl⟩ | ⟨-, rfl⟩ | ⟨-, rfl⟩ | ⟨-, rfl⟩ | ⟨-, rfl⟩ <;> rfl

namespace State

variable {x : BlockId} {s u : State}

theorem SameAt.append (h : SameAt x s u) {id : BlockId} (hid : SameAt id s u) (t : Text) :
    SameAt x (s.append id t) (u.append id t) where
  outputs := by
    rw [State.append, State.append, hid.output, Dict.get?_insert, Dict.get?_insert, h.outputs]
  marks := h.marks

theorem SameAt.clearOutput (h : SameAt x s u) (id : BlockId) :
    SameAt x (s.clearOutput id) (u.clearOutput id) := by
  by_cases hx : x = id
  · subst hx
    exact ⟨(s.outputs.get?_erase_self x).trans (u.outputs.get?_erase_self x).symm, h.marks⟩
  · exact (sameAt_clearOutput s hx).trans (h.trans ⟨(sameAt_clearOutput u hx).outputs.symm, rfl⟩)

theorem SameAt.unmark (h : SameAt x s u) (id : BlockId) :
    SameAt x (s.unmark id) (u.unmark id) := by
  by_cases hx : x = id
  · subst hx
    exact ⟨h.outputs, (s.marks.get?_erase_self x).trans (u.marks.get?_erase_self x).symm⟩
  · exact (sameAt_unmark s hx).trans (h.trans ⟨rfl, (sameAt_unmark u hx).marks.symm⟩)

theorem SameAt.isHidden (h : SameAt x s u) : s.isHidden x = u.isHidden x := by
  rw [State.isHidden, State.isHidden, h.marks]

theorem SameAt.isTouched (h : SameAt x s u) : s.isTouched x = u.isTouched x := by
  rw [State.isTouched, State.isTouched, h.marks]

theorem SameAt.putOut (h : SameAt x s u) {id : BlockId} (hid : SameAt id s u) (t : Text) :
    SameAt x (s.putOut id t) (u.putOut id t) := by
  rw [State.putOut, State.putOut, (hid.append hid t).isTouched]
  split
  · exact (h.append hid t).unmark id
  · exact h.append hid t

end State

namespace Pass

variable {N : Text → Prop} {I : BlockId → Prop} {p q : Pass} {e : Engine}

structure Alike (N : Text → Prop) (I : BlockId → Prop) (p q : Pass) : Prop where
  locals : ∀ x, N x → p.state.locals.get? x = q.state.locals.get? x
  globals : p.state.globals = q.state.globals
  kept : ∀ x, I x → p.state.SameAt x q.state
  values : p.values = q.values

theorem Alike.enter (h : Alike N I p q) (id : BlockId) : Alike N I (p.enter id) (q.enter id) := by
  rw [Pass.enter, Pass.enter]
  split
  · exact ⟨h.locals, h.globals, fun x hx => ⟨(h.kept x hx).outputs, (h.kept x hx).marks⟩, h.values⟩
  · exact h

theorem Alike.take (h : Alike N I p q) (name v : Text) :
    Alike N I
      { p with
        state := { p.state with locals := p.state.locals.erase name }
        values := p.values.insert name v }
      { q with
        state := { q.state with locals := q.state.locals.erase name }
        values := q.values.insert name v } where
  locals := by
    intro x hx
    dsimp only
    by_cases hn : x = name
    · subst hn
      rw [Dict.get?_erase_self, Dict.get?_erase_self]
    · rw [Dict.get?_erase_ne _ hn, Dict.get?_erase_ne _ hn, h.locals x hx]
  globals := h.globals
  kept := fun x hx => ⟨(h.kept x hx).outputs, (h.kept x hx).marks⟩
  values := congrArg (·.insert name v) h.values

theorem Alike.takeLocals (h : Alike N I p q) {names : List Text} (hn : ∀ x ∈ names, N x) :
    (takeLocals names p).1 = (takeLocals names q).1 ∧
      Alike N I (takeLocals names p).2 (takeLocals names q).2 := by
  induction names generalizing p q with
  | nil => exact ⟨rfl, h⟩
  | cons name names ih =>
    rw [List.forall_mem_cons] at hn
    rw [Pass.takeLocals, Pass.takeLocals, h.locals name hn.1]
    cases q.state.locals.get? name with
    | none => exact ih h hn.2
    | some v => exact ⟨rfl, (ih (h.take name v) hn.2).2⟩

theorem Alike.addGlobals (h : Alike N I p q) (names : List Text) :
    Alike N I (addGlobals names p) (addGlobals names q) := by
  induction names generalizing p q with
  | nil => exact h
  | cons name names ih =>
    rw [Pass.addGlobals, Pass.addGlobals, h.globals]
    cases q.state.globals.get? name with
    | none => exact ih h
    | some v => exact ih ⟨h.locals, h.globals, h.kept, congrArg (·.insert name v) h.values⟩

theorem apply_of_pure (he : e.Pure) (log log' : CallLog) (name : Text) (args : List Text) :
    apply e log name args = apply e log' name args := by
  rw [apply, apply]
  cases hc : e.callbacks.get? name with
  | none => rfl
  | some c => exact he name c hc _ _ args

theorem Alike.evaluate (h : Alike N I p q) (he : e.Pure) (table : CallTable) (id : CallId) :
    (evaluate e table id p).1 = (evaluate e table id q).1 ∧
      Alike N I (evaluate e table id p).2 (evaluate e table id q).2 := by
  rw [Pass.evaluate, Pass.evaluate, h.values]
  cases q.values.get? id.memo with
  | some v => exact ⟨rfl, h⟩
  | none =>
    cases table.get? id with
    | none => exact ⟨rfl, h⟩
    | some c =>
      have hresult := apply_of_pure he p.log q.log c.name (arguments e q.values c)
      exact ⟨congrArg some hresult, h.locals, h.globals, h.kept,
        congrArg (q.values.insert id.memo) hresult⟩

theorem Alike.evaluateAll (h : Alike N I p q) (he : e.Pure) (table : CallTable) (ids : List CallId)
    (parts : Pool) :
    (evaluateAll e table ids parts p).1 = (evaluateAll e table ids parts q).1 ∧
      Alike N I (evaluateAll e table ids parts p).2 (evaluateAll e table ids parts q).2 := by
  induction ids generalizing parts p q with
  | nil => exact ⟨rfl, h⟩
  | cons id ids ih =>
    obtain ⟨hresult, hrest⟩ := h.evaluate he table id
    rw [Pass.evaluateAll, Pass.evaluateAll]
    generalize Pass.evaluate e table id p = r at hresult hrest
    generalize Pass.evaluate e table id q = r' at hresult hrest
    obtain ⟨result, p'⟩ := r
    obtain ⟨result', q'⟩ := r'
    cases hresult
    cases result with
    | some v => exact ih hrest _
    | none => exact ih hrest _

theorem Alike.emit (h : Alike N I p q) (he : e.Pure) (table : CallTable) (inner : Bool)
    {id : BlockId} (hid : I id) (b : Block) (parts : Pool) :
    Alike N I (emit e table inner id b parts p) (emit e table inner id b parts q) := by
  obtain ⟨hparts, hall⟩ := h.evaluateAll he table b.calls parts
  rw [Pass.emit, Pass.emit]
  generalize Pass.evaluateAll e table b.calls parts p = r at hparts hall
  generalize Pass.evaluateAll e table b.calls parts q = r' at hparts hall
  obtain ⟨parts', p'⟩ := r
  obtain ⟨parts'', q'⟩ := r'
  cases hparts
  have hvalues : p'.values = q'.values := hall.values
  dsimp only at hall ⊢
  rw [hvalues]
  generalize (if inner then e.dialect.splice parts'.get? b.content
    else substitute e q'.values (e.dialect.splice parts'.get? b.content)) = t
  have hp := p'.state.putOut_vars id t
  have hq := q'.state.putOut_vars id t
  exact {
    locals := fun x hx => by
      change (p'.state.putOut id t).locals.get? x = (q'.state.putOut id t).locals.get? x
      rw [hp.1, hq.1, hall.locals x hx]
    globals := hp.2.1.trans (hall.globals.trans hq.2.1.symm)
    kept := fun x hx => (hall.kept x hx).putOut (hall.kept id hid) t
    values := rfl }

mutual

theorem Alike.block {p q : Pass} (h : Alike N I p q) (he : e.Pure) (table : CallTable)
    (inner silent : Bool) (o : Outline) (hn : ∀ x ∈ Reference.listed o.preorder, N x)
    (hi : ∀ x ∈ o.preorder.map (·.1), I x) :
    (block e table inner silent o p).1 = (block e table inner silent o q).1 ∧
      Alike N I (block e table inner silent o p).2 (block e table inner silent o q).2 := by
  cases o with
  | node id b cs =>
    rw [Outline.preorder, Reference.listed_cons, List.forall_mem_append] at hn
    rw [Outline.preorder, List.map_cons, List.forall_mem_cons] at hi
    obtain ⟨hown, htaken⟩ := (h.enter id).takeLocals hn.1
    rw [Pass.block, Pass.block]
    generalize Pass.takeLocals b.vars (p.enter id) = r at hown htaken
    generalize Pass.takeLocals b.vars (q.enter id) = r' at hown htaken
    obtain ⟨own, p₁⟩ := r
    obtain ⟨own', q₁⟩ := r'
    cases hown
    dsimp only at htaken ⊢
    obtain ⟨hfull, hparts, hwalked⟩ := htaken.blocks he table silent cs hn.2 hi.2 false ∅
    generalize Pass.blocks e table silent cs false ∅ p₁ = w at hfull hparts hwalked
    generalize Pass.blocks e table silent cs false ∅ q₁ = w' at hfull hparts hwalked
    obtain ⟨full, parts, p₂⟩ := w
    obtain ⟨full', parts', q₂⟩ := w'
    cases hfull
    cases hparts
    dsimp only at hwalked ⊢
    have hadded := hwalked.addGlobals b.vars
    have hemits : emits e (Pass.addGlobals b.vars p₂).state id (!(own || full)) =
        emits e (Pass.addGlobals b.vars q₂).state id (!(own || full)) := by
      rw [emits, emits, (hadded.kept id hi.1).isTouched]
    rw [hemits]
    split
    · exact ⟨rfl, hadded⟩
    · exact ⟨rfl, hadded.emit he table inner hi.1 b parts⟩

theorem Alike.blocks {p q : Pass} (h : Alike N I p q) (he : e.Pure) (table : CallTable)
    (silent : Bool) (os : List Outline) (hn : ∀ x ∈ Reference.listed (Outline.preorderAll os), N x)
    (hi : ∀ x ∈ (Outline.preorderAll os).map (·.1), I x) (full : Bool) (parts : Pool) :
    (blocks e table silent os full parts p).1 = (blocks e table silent os full parts q).1 ∧
    (blocks e table silent os full parts p).2.1 = (blocks e table silent os full parts q).2.1 ∧
      Alike N I (blocks e table silent os full parts p).2.2
        (blocks e table silent os full parts q).2.2 := by
  cases os with
  | nil => exact ⟨rfl, rfl, h⟩
  | cons c cs =>
    rw [Outline.preorderAll, Reference.listed_append, List.forall_mem_append] at hn
    rw [Outline.preorderAll, List.map_append, List.forall_mem_append] at hi
    have hc : I c.id := hi.1 _ (List.mem_map_of_mem c.head_mem_preorder)
    rw [Pass.blocks, Pass.blocks, (h.kept c.id hc).isHidden]
    dsimp only
    split
    · have hwalk := (h.block he table true true c hn.1 hi.1).2
      refine Alike.blocks ?_ he table silent cs hn.2 hi.2 _ _
      exact ⟨hwalk.locals, hwalk.globals, fun x hx => (hwalk.kept x hx).unmark c.id, hwalk.values⟩
    · have hwalk := (h.block he table true silent c hn.1 hi.1).2
      rw [(hwalk.kept c.id hc).output]
      refine Alike.blocks ?_ he table silent cs hn.2 hi.2 _ _
      exact ⟨hwalk.locals, hwalk.globals, fun x hx => (hwalk.kept x hx).clearOutput c.id,
        hwalk.values⟩

end

end Pass

end BlockTemplate
