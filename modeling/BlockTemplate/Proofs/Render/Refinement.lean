import BlockTemplate.Proofs.Render.Reference

/-!
# Rendering follows its reference

A render uses up each local variable at the first block that lists it and adds global values when a
block is left. So the values at any point are told by the blocks that were entered and by those that
were left, and what a block puts out is told by the state that the render started from.
-/

namespace BlockTemplate.Pass

open Reference (listed listed_append listed_cons)

variable {r : Reference} {seen done : List Text} {p : Pass}

structure Follows (r : Reference) (seen done : List Text) (p : Pass) : Prop where
  covered : ∀ x ∈ done, x ∈ seen
  locals : ∀ x, p.state.locals.get? x = if x ∈ seen then none else r.state.locals.get? x
  globals : p.state.globals = r.state.globals
  values : ∀ x, p.values.get? x =
    (if x ∈ done then r.state.globals.get? x else none).or
      (if x ∈ seen then r.state.locals.get? x else none)

theorem Follows.congr {seen' done' : List Text} (h : Follows r seen done p)
    (hs : ∀ x, x ∈ seen' ↔ x ∈ seen) (hd : ∀ x, x ∈ done' ↔ x ∈ done) :
    Follows r seen' done' p where
  covered := fun x hx => (hs x).mpr (h.covered x ((hd x).mp hx))
  locals := by
    intro x
    rw [h.locals]
    simp only [hs]
  globals := h.globals
  values := by
    intro x
    rw [h.values]
    simp only [hs, hd]

theorem Follows.enter (h : Follows r seen done p) (id : BlockId) :
    Follows r seen done (p.enter id) := by
  rw [Pass.enter]
  split
  · exact ⟨h.covered, h.locals, h.globals, h.values⟩
  · exact h

theorem Follows.withState (h : Follows r seen done p) {s : State}
    (hl : s.locals = p.state.locals) (hg : s.globals = p.state.globals) :
    Follows r seen done { p with state := s } where
  covered := h.covered
  locals := by
    intro x
    rw [← h.locals x, hl]
  globals := hg.trans h.globals
  values := h.values

theorem Follows.take (h : Follows r seen done p) {name v : Text}
    (hv : p.state.locals.get? name = some v) :
    Follows r (seen ++ [name]) done { p with
      state := { p.state with locals := p.state.locals.erase name }
      values := p.values.insert name v } := by
  have hl := h.locals name
  rw [hv] at hl
  have hnew : name ∉ seen := by
    intro hm
    rw [if_pos hm] at hl
    cases hl
  rw [if_neg hnew] at hl
  refine ⟨fun x hx => List.mem_append_left _ (h.covered x hx), ?_, h.globals, ?_⟩
  · intro x
    by_cases hx : x = name
    · subst hx
      rw [if_pos (List.mem_append_right _ (List.mem_singleton_self _))]
      exact Dict.get?_erase_self _ _
    · have hlx := h.locals x
      simp only [List.mem_append, List.mem_singleton, hx, or_false]
      rw [← hlx]
      exact Dict.get?_erase_ne _ hx
  · intro x
    by_cases hx : x = name
    · subst hx
      have hdone : x ∉ done := fun hm => hnew (h.covered x hm)
      rw [if_neg hdone, if_pos (List.mem_append_right _ (List.mem_singleton_self _)), ← hl]
      exact Dict.get?_insert_self _ _ _
    · have hvx := h.values x
      simp only [List.mem_append, List.mem_singleton, hx, or_false]
      rw [← hvx]
      exact Dict.get?_insert_ne _ _ hx

theorem Follows.skip (h : Follows r seen done p) {name : Text}
    (hv : p.state.locals.get? name = none) : Follows r (seen ++ [name]) done p := by
  have hl := h.locals name
  rw [hv] at hl
  have hnone : name ∉ seen → r.state.locals.get? name = none := by
    intro hn
    rw [if_neg hn] at hl
    exact hl.symm
  refine ⟨fun x hx => List.mem_append_left _ (h.covered x hx), ?_, h.globals, ?_⟩
  · intro x
    by_cases hx : x = name
    · subst hx
      rw [if_pos (List.mem_append_right _ (List.mem_singleton_self _)), hv]
    · rw [h.locals x]
      simp only [List.mem_append, List.mem_singleton, hx, or_false]
  · intro x
    rw [h.values x]
    by_cases hx : x = name
    · subst hx
      rw [if_pos (List.mem_append_right seen (List.mem_singleton_self x))]
      by_cases hs : x ∈ seen
      · rw [if_pos hs]
      · rw [if_neg hs, hnone hs]
    · simp only [List.mem_append, List.mem_singleton, hx, or_false]

theorem follows_takeLocals (h : Follows r seen done p) (names : List Text) :
    Follows r (seen ++ names) done (takeLocals names p).2 ∧
      (takeLocals names p).1 =
        names.any fun x => (r.state.locals.get? x).isSome && !seen.contains x := by
  induction names generalizing seen p with
  | nil =>
    rw [List.append_nil]
    exact ⟨h, rfl⟩
  | cons name names ih =>
    have hl := h.locals name
    rw [takeLocals, List.any_cons, ← List.singleton_append, ← List.append_assoc]
    split
    · rename_i hv
      rw [hv] at hl
      obtain ⟨hf, hown⟩ := ih (h.skip hv)
      refine ⟨hf, ?_⟩
      have hfalse : ((r.state.locals.get? name).isSome && !seen.contains name) = false := by
        by_cases hs : name ∈ seen
        · simp [hs]
        · rw [if_neg hs] at hl
          simp [← hl]
      rw [hown, hfalse, Bool.false_or]
      congr 1
      funext x
      by_cases hx : x = name
      · subst hx
        rw [hfalse]
        simp
      · simp [hx]
    · rename_i v hv
      rw [hv] at hl
      refine ⟨(ih (h.take hv)).1, ?_⟩
      have hs : name ∉ seen := by
        intro hm
        rw [if_pos hm] at hl
        cases hl
      rw [if_neg hs] at hl
      simp [← hl, hs]

theorem follows_addGlobals (h : Follows r seen done p) {names : List Text}
    (hn : ∀ x ∈ names, x ∈ seen) : Follows r seen (done ++ names) (addGlobals names p) := by
  induction names generalizing done p with
  | nil =>
    rw [List.append_nil]
    exact h
  | cons name names ih =>
    have hname := hn name List.mem_cons_self
    have hrest : ∀ x ∈ names, x ∈ seen := fun x hx => hn x (List.mem_cons_of_mem _ hx)
    have hcovered : ∀ x ∈ done ++ [name], x ∈ seen := by
      intro x hx
      rcases List.mem_append.mp hx with hx | hx
      · exact h.covered x hx
      · rw [List.mem_singleton.mp hx]
        exact hname
    rw [addGlobals, ← List.singleton_append, ← List.append_assoc]
    split
    · rename_i hg
      refine ih ⟨hcovered, h.locals, h.globals, ?_⟩ hrest
      intro x
      rw [h.values x]
      by_cases hx : x = name
      · subst hx
        rw [h.globals] at hg
        simp [hg]
      · simp [hx]
    · rename_i v hg
      refine ih ⟨hcovered, h.locals, h.globals, ?_⟩ hrest
      intro x
      by_cases hx : x = name
      · subst hx
        rw [h.globals] at hg
        simp [hg]
      · have hvx := h.values x
        simp only [List.mem_append, List.mem_singleton, hx, or_false]
        rw [← hvx]
        exact Dict.get?_insert_ne _ _ hx

theorem emit_of_no_calls (e : Engine) (table : CallTable) (inner : Bool) (id : BlockId) {b : Block}
    (hb : b.calls = []) (parts : Pool) (p : Pass) :
    ∃ s, emit e table inner id b parts p = { p with state := s } ∧ s.locals = p.state.locals ∧
      s.globals = p.state.globals ∧ s.output id = p.state.output id ++
        (if inner then e.dialect.splice parts.get? b.content
          else substitute e p.values (e.dialect.splice parts.get? b.content)) := by
  have happend : ∀ (s : State) (t : Text), (s.append id t).output id = s.output id ++ t := by
    intro s t
    rw [State.append, State.output, Dict.get?_insert_self]
    rfl
  have hput : ∀ (s : State) (t : Text), ∃ u,
      (if (s.append id t).isTouched id then (s.append id t).unmark id else s.append id t) = u ∧
        u.locals = s.locals ∧ u.globals = s.globals ∧ u.output id = s.output id ++ t := by
    intro s t
    refine ⟨_, rfl, ?_⟩
    split
    · exact ⟨rfl, rfl, happend s t⟩
    · exact ⟨rfl, rfl, happend s t⟩
  obtain ⟨u, hu, hl, hg, hout⟩ := hput p.state (if inner then e.dialect.splice parts.get? b.content
    else substitute e p.values (e.dialect.splice parts.get? b.content))
  refine ⟨u, ?_, hl, hg, hout⟩
  rw [emit, hb]
  dsimp only [evaluateAll]
  rw [hu]

section Order

variable {before later : List (BlockId × Block)} {id : BlockId} {b : Block} {o : Outline}

theorem takeWhile_order (hn : (r.order.map (·.1)).Nodup)
    (horder : r.order = before ++ (id, b) :: later) : r.order.takeWhile (·.1 ≠ id) = before := by
  rw [horder, List.map_append, List.map_cons] at hn
  have hbefore : ∀ x ∈ before, decide (x.1 ≠ id) = true := by
    intro x hx
    rw [decide_eq_true_eq]
    exact (List.nodup_append.mp hn).2.2 x.1 (List.mem_map_of_mem hx) id List.mem_cons_self
  rw [horder, List.takeWhile_append_of_pos hbefore, List.takeWhile_cons_of_neg (by simp),
    List.append_nil]

theorem nodup_of_order {os : List (BlockId × Block)} (hn : (r.order.map (·.1)).Nodup)
    (horder : r.order = before ++ (os ++ later)) : (os.map (·.1)).Nodup := by
  rw [horder, List.map_append, List.map_append] at hn
  exact (List.nodup_append.mp (List.nodup_append.mp hn).2.1).1

end Order

structure Rendered (r : Reference) (inner silent : Bool) (before : List (BlockId × Block))
    (done : List Text) (o : Outline) (result : Bool × Pass) : Prop where
  follows : Follows r (listed (before ++ o.preorder)) (done ++ listed o.preorder) result.2
  empty : silent = false → result.1 = !r.nonempty o
  output : silent = false → result.2.state.output o.id = r.state.output o.id ++
    (if inner then r.piece o else substitute r.engine result.2.values (r.piece o))

structure RenderedAll (r : Reference) (silent : Bool) (before : List (BlockId × Block))
    (done : List Text) (os : List Outline) (full : Bool) (parts : Pool)
    (result : Bool × Pool × Pass) : Prop where
  follows : Follows r (listed (before ++ Outline.preorderAll os))
    (done ++ listed (Outline.preorderAll os)) result.2.2
  full : silent = false → result.1 = (full || r.anyFull os)
  parts : silent = false → ∀ x, result.2.1.get? x = (r.tokens os x).or (parts.get? x)

theorem rendered_leave {table : CallTable} {inner silent own full : Bool} {parts : Pool}
    {before : List (BlockId × Block)} {id : BlockId} {b : Block} {cs : List Outline}
    (hb : b.calls = []) (hown : own = r.owns id b)
    (hall : RenderedAll r silent (before ++ [(id, b)]) done cs false ∅ (full, parts, p))
    (hsame : p.state.SameAt id r.state) :
    Rendered r inner silent before done (.node id b cs)
      (if silent || !emits r.engine (addGlobals b.vars p).state id (!(own || full)) then
          (!(own || full), addGlobals b.vars p)
        else (!(own || full), emit r.engine table inner id b parts (addGlobals b.vars p))) := by
  have hfollows : Follows r (listed (before ++ Outline.preorder (.node id b cs)))
      (done ++ listed (Outline.preorder (.node id b cs))) (addGlobals b.vars p) := by
    refine (follows_addGlobals hall.follows ?_).congr ?_ ?_
    · intro x hx
      simp only [listed_append, listed_cons, List.mem_append]
      exact .inl (.inr (.inl hx))
    · intro x
      simp only [Outline.preorder, listed_append, listed_cons, List.mem_append]
      simp [Reference.listed, or_assoc]
    · intro x
      simp only [Outline.preorder, listed_cons, List.mem_append]
      tauto
  have hfull : silent = false → full = r.anyFull cs := by
    intro hs
    have h := hall.full hs
    rw [Bool.false_or] at h
    exact h
  have hnonempty : silent = false → (!(own || full)) = !r.nonempty (.node id b cs) := by
    intro hs
    rw [hfull hs, hown, Reference.nonempty]
  have hemits : silent = false → emits r.engine (addGlobals b.vars p).state id (!(own || full)) =
      r.emits id (r.owns id b || r.anyFull cs) := by
    intro hs
    have htouched : p.state.isTouched id = r.state.isTouched id := by
      rw [State.isTouched, State.isTouched, hsame.marks]
    rw [state_addGlobals, hfull hs, hown, emits, Reference.emits, htouched, Bool.not_not]
  -- The render and the reference decide alike whether the block is put out.
  split
  · rename_i hquiet
    refine ⟨hfollows, hnonempty, ?_⟩
    intro hs
    rw [hs, Bool.false_or, hemits hs, Bool.not_eq_true'] at hquiet
    have hpiece : r.piece (.node id b cs) = [] := by
      rw [Reference.piece, hquiet]
      rfl
    have hnothing : substitute r.engine (addGlobals b.vars p).values [] = [] := by
      rw [substitute, Dialect.splice, Dialect.names, Text.pieces_nil]
      rfl
    rw [hpiece, hnothing, ite_self, List.append_nil]
    change (addGlobals b.vars p).state.output id = _
    rw [state_addGlobals]
    exact hsame.output
  · rename_i hloud
    obtain ⟨s, hemit, hl, hg, hout⟩ :=
      emit_of_no_calls r.engine table inner id hb parts (addGlobals b.vars p)
    rw [hemit]
    refine ⟨hfollows.withState hl hg, hnonempty, ?_⟩
    intro hs
    have hput : r.emits id (r.owns id b || r.anyFull cs) = true := by
      rw [hs, Bool.false_or, hemits hs] at hloud
      simpa using hloud
    have hparts : parts.get? = r.tokens cs := by
      funext x
      exact (hall.parts hs x).trans Option.or_none
    have hpiece : r.piece (.node id b cs) = r.engine.dialect.splice parts.get? b.content := by
      rw [Reference.piece, hput, hparts]
      rfl
    rw [hpiece]
    change s.output id = _
    rw [hout, state_addGlobals, hsame.output]
    rfl

theorem rendered_cons {silent full full' : Bool} {parts : Pool} {text : Text}
    {before : List (BlockId × Block)} {c : Outline} {cs : List Outline}
    {result : Bool × Pool × Pass}
    (hcs : RenderedAll r silent (before ++ c.preorder) (done ++ listed c.preorder) cs full'
      (parts.insert (childName c.block.name) text) result)
    (hfull : silent = false →
      full' = (full || (!r.state.isHidden c.id && r.state.output c.id ++ r.piece c ≠ [])))
    (htext : silent = false →
      text = if r.state.isHidden c.id then [] else r.state.output c.id ++ r.piece c) :
    RenderedAll r silent before done (c :: cs) full parts result := by
  refine ⟨?_, ?_, ?_⟩
  · have h := hcs.follows
    rw [List.append_assoc, List.append_assoc, ← listed_append] at h
    exact h
  · intro hs
    rw [hcs.full hs, hfull hs, Reference.anyFull, Bool.or_assoc]
  · intro hs x
    rw [hcs.parts hs, Reference.tokens, Option.or_assoc, ← htext hs]
    congr 1
    by_cases hx : x = childName c.block.name
    · rw [if_pos hx, hx, Dict.get?_insert_self]
      rfl
    · rw [if_neg hx, Dict.get?_insert_ne _ _ hx]
      rfl

mutual

theorem rendered_block (hn : (r.order.map (·.1)).Nodup) (hcalls : ∀ x ∈ r.order, x.2.calls = [])
    (table : CallTable) (inner silent : Bool) (o : Outline)
    {before later : List (BlockId × Block)} (horder : r.order = before ++ (o.preorder ++ later))
    {done : List Text} {p : Pass} (hf : Follows r (listed before) done p)
    (hsame : ∀ x ∈ o.preorder.map (·.1), p.state.SameAt x r.state) :
    Rendered r inner silent before done o (block r.engine table inner silent o p) := by
  cases o with
  | node id b cs =>
    have hnode : r.order = before ++ (id, b) :: (Outline.preorderAll cs ++ later) := horder
    have hchildren : r.order = (before ++ [(id, b)]) ++ (Outline.preorderAll cs ++ later) := by
      rw [hnode, List.append_assoc, List.singleton_append]
    have hids := nodup_of_order hn horder
    rw [Outline.preorder, List.map_cons] at hids hsame
    obtain ⟨htake, hown⟩ := follows_takeLocals (hf.enter id) b.vars
    have hkeep := fun x hx => (sameAt_takeLocals b.vars (p.enter id) x).trans
      ((sameAt_enter id p x).trans (hsame x hx))
    have hb : b.calls = [] := hcalls (id, b) (hnode ▸ List.mem_append_right _ List.mem_cons_self)
    have hseen : Follows r (listed (before ++ [(id, b)])) done (takeLocals b.vars (p.enter id)).2 := by
      refine htake.congr ?_ fun x => Iff.rfl
      intro x
      simp [Reference.listed]
    have hall := rendered_blocks hn hcalls table silent cs hchildren hseen
      (fun x hx => hkeep x (List.mem_cons_of_mem _ hx)) false ∅
    have hid := (sameAt_blocks r.engine table silent cs (List.nodup_cons.mp hids).1 false ∅
      (takeLocals b.vars (p.enter id)).2).trans (hkeep id List.mem_cons_self)
    rw [block]
    refine rendered_leave hb ?_ hall hid
    rw [hown, Reference.owns, takeWhile_order hn hnode]

theorem rendered_blocks (hn : (r.order.map (·.1)).Nodup) (hcalls : ∀ x ∈ r.order, x.2.calls = [])
    (table : CallTable) (silent : Bool) (os : List Outline)
    {before later : List (BlockId × Block)}
    (horder : r.order = before ++ (Outline.preorderAll os ++ later))
    {done : List Text} {p : Pass} (hf : Follows r (listed before) done p)
    (hsame : ∀ x ∈ (Outline.preorderAll os).map (·.1), p.state.SameAt x r.state)
    (full : Bool) (parts : Pool) :
    RenderedAll r silent before done os full parts
      (blocks r.engine table silent os full parts p) := by
  cases os with
  | nil =>
    refine ⟨?_, fun _ => (Bool.or_false _).symm, fun _ x => Option.none_or.symm⟩
    simpa [blocks, Outline.preorderAll, Reference.listed] using hf
  | cons c cs =>
    rw [Outline.preorderAll] at horder hsame
    have hids := nodup_of_order hn horder
    rw [List.map_append] at hids hsame
    have happart : ∀ x ∈ (Outline.preorderAll cs).map (·.1), x ∉ c.preorder.map (·.1) :=
      fun x hx hm => (List.nodup_append.mp hids).2.2 x hm x hx rfl
    have hcid : c.id ∈ c.preorder.map (·.1) := List.mem_map_of_mem c.head_mem_preorder
    have hfirst : r.order = before ++ (c.preorder ++ (Outline.preorderAll cs ++ later)) := by
      rw [horder, List.append_assoc]
    have hrest : r.order = (before ++ c.preorder) ++ (Outline.preorderAll cs ++ later) := by
      rw [hfirst, List.append_assoc]
    have hcsame : ∀ x ∈ c.preorder.map (·.1), p.state.SameAt x r.state :=
      fun x hx => hsame x (List.mem_append_left _ hx)
    -- Neither a block below another child nor its mark or output is touched by this one.
    have hkeep : ∀ (quiet : Bool), ∀ x ∈ (Outline.preorderAll cs).map (·.1),
        x ≠ c.id ∧ (block r.engine table true quiet c p).2.state.SameAt x r.state := by
      intro quiet x hx
      refine ⟨fun he => happart x hx (he ▸ hcid), ?_⟩
      exact (sameAt_block r.engine table true quiet c (happart x hx) p).trans
        (hsame x (List.mem_append_right _ hx))
    have hmark : p.state.isHidden c.id = r.state.isHidden c.id := by
      rw [State.isHidden, State.isHidden, (hcsame c.id hcid).marks]
    rw [blocks]
    dsimp only
    rw [hmark]
    by_cases hh : r.state.isHidden c.id = true
    · rw [if_pos hh]
      have hc := rendered_block hn hcalls table true true c hfirst hf hcsame
      have hfollows := hc.follows.withState
        (s := (block r.engine table true true c p).2.state.unmark c.id) rfl rfl
      refine rendered_cons (rendered_blocks hn hcalls table silent cs hrest hfollows ?_ _ _) ?_ ?_
      · intro x hx
        exact (State.sameAt_unmark _ (hkeep true x hx).1).trans (hkeep true x hx).2
      · intro _
        rw [hh, Bool.not_true, Bool.false_and, Bool.or_false]
      · intro _
        rw [if_pos hh]
    · rw [if_neg hh]
      have hc := rendered_block hn hcalls table true silent c hfirst hf hcsame
      have hfollows := hc.follows.withState
        (s := (block r.engine table true silent c p).2.state.clearOutput c.id) rfl rfl
      refine rendered_cons (rendered_blocks hn hcalls table silent cs hrest hfollows ?_ _ _) ?_ ?_
      · intro x hx
        exact (State.sameAt_clearOutput _ (hkeep silent x hx).1).trans (hkeep silent x hx).2
      · intro hs
        rw [hc.output hs, if_pos rfl]
        simp [hh]
      · intro hs
        rw [hc.output hs, if_pos rfl, if_neg hh]

end

end BlockTemplate.Pass
