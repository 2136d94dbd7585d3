import BlockTemplate.Proofs.Tree.Walk
import BlockTemplate.Render.Pass

/-!
# Where rendering writes

Rendering an outline collects output for blocks of the outline only, and it never marks a block.
-/

namespace BlockTemplate

/-- Output and marks are kept for blocks of `live` only. -/
structure State.Within (live : BlockId → Prop) (s : State) : Prop where
  outputs : ∀ id text, s.outputs.get? id = some text → live id
  marks : ∀ id m, s.marks.get? id = some m → live id

namespace State

variable {live : BlockId → Prop} {s : State}

theorem get?_of_insert {α : Type} {d : Dict BlockId α} {id x : BlockId} {v w : α}
    (h : (d.insert id v).get? x = some w) : x = id ∨ d.get? x = some w := by
  by_cases hx : x = id
  · exact .inl hx
  · rw [d.get?_insert_ne v hx] at h
    exact .inr h

theorem get?_of_erase {α : Type} {d : Dict BlockId α} {id x : BlockId} {w : α}
    (h : (d.erase id).get? x = some w) : x ≠ id ∧ d.get? x = some w := by
  have hx : x ≠ id := by
    intro he
    rw [he, d.get?_erase_self] at h
    cases h
  rw [d.get?_erase_ne hx] at h
  exact ⟨hx, h⟩

theorem within_fresh (s : State) : s.fresh.Within live where
  outputs := by
    intro id text h
    cases h
  marks := by
    intro id m h
    cases h

theorem Within.mono {next : BlockId → Prop} (h : s.Within live) (hm : ∀ id, live id → next id) :
    s.Within next where
  outputs := fun id text hid => hm id (h.outputs id text hid)
  marks := fun id m hid => hm id (h.marks id m hid)

theorem Within.clearOutput (h : s.Within live) (id : BlockId) : (s.clearOutput id).Within live where
  outputs := fun x text hx => h.outputs x text (get?_of_erase hx).2
  marks := h.marks

theorem Within.mark (h : s.Within live) {id : BlockId} (hid : live id) (m : Mark) :
    (s.mark id m).Within live where
  outputs := h.outputs
  marks := by
    intro x n hx
    rcases get?_of_insert hx with rfl | hx
    · exact hid
    · exact h.marks x n hx

theorem Within.unmark (h : s.Within live) (id : BlockId) : (s.unmark id).Within live where
  outputs := h.outputs
  marks := fun x m hx => h.marks x m (get?_of_erase hx).2

structure SameAt (x : BlockId) (s u : State) : Prop where
  outputs : s.outputs.get? x = u.outputs.get? x
  marks : s.marks.get? x = u.marks.get? x

variable {x : BlockId} {u v : State}

theorem SameAt.refl (x : BlockId) (s : State) : SameAt x s s := ⟨rfl, rfl⟩

theorem SameAt.trans (h₁ : SameAt x s u) (h₂ : SameAt x u v) : SameAt x s v :=
  ⟨h₁.outputs.trans h₂.outputs, h₁.marks.trans h₂.marks⟩

theorem SameAt.output (h : SameAt x s u) : s.output x = u.output x := by
  rw [State.output, State.output, h.outputs]

theorem sameAt_append (s : State) {id : BlockId} (h : x ≠ id) (t : Text) :
    SameAt x (s.append id t) s := ⟨s.outputs.get?_insert_ne _ h, rfl⟩

theorem sameAt_clearOutput (s : State) {id : BlockId} (h : x ≠ id) : SameAt x (s.clearOutput id) s :=
  ⟨s.outputs.get?_erase_ne h, rfl⟩

theorem sameAt_unmark (s : State) {id : BlockId} (h : x ≠ id) : SameAt x (s.unmark id) s :=
  ⟨rfl, s.marks.get?_erase_ne h⟩

theorem Within.of_sameAt (h : s.Within live) (hs : ∀ x, ¬ live x → SameAt x u s) :
    u.Within live where
  outputs := by
    intro x text hx
    by_contra hn
    exact hn (h.outputs x text ((hs x hn).outputs ▸ hx))
  marks := by
    intro x m hx
    by_contra hn
    exact hn (h.marks x m ((hs x hn).marks ▸ hx))

theorem Within.forgetAll (h : s.Within live) (ids : List BlockId) :
    (ids.foldl State.forget s).Within (fun id => live id ∧ id ∉ ids) := by
  induction ids generalizing s live with
  | nil => exact h.mono fun id hid => ⟨hid, List.not_mem_nil⟩
  | cons a ids ih =>
    have hstep : (s.forget a).Within (fun id => live id ∧ id ≠ a) := by
      refine ⟨?_, ?_⟩
      · intro x text hx
        obtain ⟨hne, hx⟩ := get?_of_erase hx
        exact ⟨h.outputs x text hx, hne⟩
      · intro x m hx
        obtain ⟨hne, hx⟩ := get?_of_erase hx
        exact ⟨h.marks x m hx, hne⟩
    rw [List.foldl_cons]
    refine (ih hstep).mono ?_
    intro id ⟨⟨hid, hne⟩, hnot⟩
    exact ⟨hid, List.not_mem_cons_of_ne_of_not_mem hne hnot⟩

theorem sameAt_forgetAll (s : State) {ids : List BlockId} (hx : x ∉ ids) :
    SameAt x (ids.foldl forget s) s := by
  induction ids generalizing s with
  | nil => exact .refl x s
  | cons a ids ih =>
    have hne : x ≠ a := fun he => hx (he ▸ List.mem_cons_self)
    have hstep : SameAt x (s.forget a) s :=
      (sameAt_unmark (s.clearOutput a) hne).trans (sameAt_clearOutput s hne)
    exact (ih (s.forget a) fun hm => hx (List.mem_cons_of_mem a hm)).trans hstep

theorem variables_forgetAll (ids : List BlockId) (s : State) :
    (ids.foldl forget s).locals = s.locals ∧ (ids.foldl forget s).globals = s.globals := by
  induction ids generalizing s with
  | nil => exact ⟨rfl, rfl⟩
  | cons a ids ih => exact ih (s.forget a)

end State

namespace Pass

variable {live : BlockId → Prop} {p : Pass}

theorem sameAt_enter (id : BlockId) (p : Pass) (x : BlockId) :
    (p.enter id).state.SameAt x p.state := by
  rw [enter]
  split
  · exact ⟨rfl, rfl⟩
  · exact .refl x p.state

theorem sameAt_takeLocals (names : List Text) (p : Pass) (x : BlockId) :
    (takeLocals names p).2.state.SameAt x p.state := by
  induction names generalizing p with
  | nil => exact .refl x p.state
  | cons name names ih =>
    rw [takeLocals]
    split
    · exact ih p
    · rename_i v hv
      exact (ih { p with
        state := { p.state with locals := p.state.locals.erase name }
        values := p.values.insert name v }).trans ⟨rfl, rfl⟩

theorem state_addGlobals (names : List Text) (p : Pass) : (addGlobals names p).state = p.state := by
  induction names generalizing p with
  | nil => rfl
  | cons name names ih =>
    rw [addGlobals]
    split
    · exact ih p
    · rw [ih]

theorem state_evaluate (e : Engine) (table : CallTable) (id : CallId) (p : Pass) :
    (evaluate e table id p).2.state = p.state := by
  rw [evaluate]
  split <;> rfl

theorem state_evaluateAll (e : Engine) (table : CallTable) (ids : List CallId) (parts : Pool)
    (p : Pass) : (evaluateAll e table ids parts p).2.state = p.state := by
  induction ids generalizing parts p with
  | nil => rfl
  | cons id ids ih =>
    have hid := state_evaluate e table id p
    rw [evaluateAll]
    split
    · rename_i he
      rw [he] at hid
      rw [ih, hid]
    · rename_i he
      rw [he] at hid
      rw [ih, hid]

theorem sameAt_emit (e : Engine) (table : CallTable) (inner : Bool) {id x : BlockId} (hx : x ≠ id)
    (b : Block) (parts : Pool) (p : Pass) :
    (emit e table inner id b parts p).state.SameAt x p.state := by
  have hput : ∀ (s : State) (t : Text), (let u := s.append id t
      if u.isTouched id then u.unmark id else u).SameAt x s := by
    intro s t
    dsimp only
    split
    · exact (State.sameAt_unmark _ hx).trans (State.sameAt_append s hx t)
    · exact State.sameAt_append s hx t
  have hsame : (evaluateAll e table b.calls parts p).2.state.SameAt x p.state := by
    rw [state_evaluateAll]
    exact .refl x p.state
  exact (hput (evaluateAll e table b.calls parts p).2.state _).trans hsame

mutual

theorem sameAt_block (e : Engine) (table : CallTable) (inner silent : Bool) (o : Outline)
    {x : BlockId} (hx : x ∉ o.preorder.map (·.1)) (p : Pass) :
    (block e table inner silent o p).2.state.SameAt x p.state := by
  cases o with
  | node id b cs =>
    rw [Outline.preorder, List.map_cons, List.mem_cons, not_or] at hx
    have henter : (p.enter id).state.SameAt x p.state := sameAt_enter id p x
    have hown := (sameAt_takeLocals b.vars (p.enter id) x).trans henter
    have hsub := (sameAt_blocks e table silent cs hx.2 false ∅ _).trans hown
    rw [block]
    dsimp only
    split
    · rw [state_addGlobals]
      exact hsub
    · refine (sameAt_emit e table inner hx.1 b _ _).trans ?_
      rw [state_addGlobals]
      exact hsub

theorem sameAt_blocks (e : Engine) (table : CallTable) (silent : Bool) (os : List Outline)
    {x : BlockId} (hx : x ∉ (Outline.preorderAll os).map (·.1)) (full : Bool) (parts : Pool)
    (p : Pass) : (blocks e table silent os full parts p).2.2.state.SameAt x p.state := by
  cases os with
  | nil => exact .refl x p.state
  | cons o os =>
    rw [Outline.preorderAll, List.map_append, List.mem_append, not_or] at hx
    have hid : x ≠ o.id := by
      rintro rfl
      exact hx.1 (List.mem_map_of_mem o.head_mem_preorder)
    rw [blocks]
    dsimp only
    split
    · exact (sameAt_blocks e table silent os hx.2 _ _ _).trans
        ((State.sameAt_unmark _ hid).trans (sameAt_block e table true true o hx.1 p))
    · exact (sameAt_blocks e table silent os hx.2 _ _ _).trans
        ((State.sameAt_clearOutput _ hid).trans (sameAt_block e table true silent o hx.1 p))

end

theorem within_block (e : Engine) (table : CallTable) (inner silent : Bool) (o : Outline)
    (ho : ∀ x ∈ o.preorder, live x.1) (p : Pass) (h : p.state.Within live) :
    (block e table inner silent o p).2.state.Within live := by
  refine h.of_sameAt ?_
  intro x hx
  refine sameAt_block e table inner silent o ?_ p
  intro hm
  obtain ⟨y, hy, rfl⟩ := List.mem_map.mp hm
  exact hx (ho y hy)

end Pass

end BlockTemplate
