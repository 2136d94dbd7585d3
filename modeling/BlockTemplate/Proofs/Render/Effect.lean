import BlockTemplate.Proofs.Render.Reference

/-!
# What rendering changes

Rendering walks every block below the rendered one, the silent ones included. It uses up what the
blocks walked list, takes the output of every child that is not hidden and drops the hidden marks.
Marks of touching are dropped only from blocks that may be put out, and what a block puts out does
not depend on what it had collected before.
-/

namespace BlockTemplate

namespace Outline

mutual

/-- The blocks of an outline that are neither hidden nor below a hidden one, the top aside. -/
def exposed (hidden : BlockId → Bool) : Outline → List BlockId
  | .node id _ cs => id :: exposedAll hidden cs

def exposedAll (hidden : BlockId → Bool) : List Outline → List BlockId
  | [] => []
  | c :: cs => (if hidden c.id then [] else c.exposed hidden) ++ exposedAll hidden cs

end

def inner (o : Outline) : List BlockId := (preorderAll o.children).map (·.1)

theorem ids_eq (o : Outline) : o.preorder.map (·.1) = o.id :: o.inner := by
  cases o with
  | node id b cs => rfl

theorem id_mem_exposed {hidden : BlockId → Bool} (o : Outline) : o.id ∈ o.exposed hidden := by
  cases o with
  | node id b cs => exact List.mem_cons_self

mutual

theorem exposed_congr {hidden hidden' : BlockId → Bool} (o : Outline)
    (h : ∀ x ∈ o.inner, hidden' x = hidden x) : o.exposed hidden' = o.exposed hidden := by
  cases o with
  | node id b cs =>
    rw [exposed, exposed, exposedAll_congr cs h]

theorem exposedAll_congr {hidden hidden' : BlockId → Bool} (os : List Outline)
    (h : ∀ x ∈ (preorderAll os).map (·.1), hidden' x = hidden x) :
    exposedAll hidden' os = exposedAll hidden os := by
  cases os with
  | nil => rfl
  | cons c cs =>
    rw [preorderAll, List.map_append] at h
    have hc : ∀ x ∈ c.id :: c.inner, hidden' x = hidden x := by
      intro x hx
      exact h x (List.mem_append_left _ (c.ids_eq ▸ hx))
    rw [exposedAll, exposedAll, hc c.id List.mem_cons_self,
      exposed_congr c fun x hx => hc x (List.mem_cons_of_mem _ hx),
      exposedAll_congr cs fun x hx => h x (List.mem_append_right _ hx)]

end

open Lookup (Reach IsTree)

variable {look : Lookup} {root : BlockId}

theorem Mirrors.mem_inner_iff {o : Outline} (h : Mirrors look o) (ht : IsTree look root)
    {x : BlockId} : x ∈ o.inner ↔ Reach look o.id x ∧ x ≠ o.id := by
  have hn := h.nodup_preorder ht
  have hids := h.mem_ids_iff (x := x) ht
  rw [ids_eq, List.nodup_cons] at hn
  rw [ids_eq, List.mem_cons] at hids
  rw [← hids]
  refine ⟨fun hx => ⟨.inr hx, fun he => hn.1 (he ▸ hx)⟩, fun hx => hx.1.resolve_left hx.2⟩

theorem below_iff {id x : BlockId} {b : Block} {cs : List Outline}
    (h : Mirrors look (.node id b cs)) (ht : IsTree look root) :
    Reach look id x ∧ x ≠ id ↔ ∃ c ∈ cs, Reach look c.id x := by
  refine (h.mem_inner_iff ht).symm.trans ?_
  rw [inner, List.mem_map]
  constructor
  · rintro ⟨e, he, hx⟩
    obtain ⟨c, hc, hec⟩ := mem_preorderAll.mp he
    exact ⟨c, hc, ((h.of_mem_children hc).mem_ids_iff ht).mp (List.mem_map.mpr ⟨e, hec, hx⟩)⟩
  · rintro ⟨c, hc, hx⟩
    obtain ⟨e, he, hex⟩ := List.mem_map.mp (((h.of_mem_children hc).mem_ids_iff ht).mpr hx)
    exact ⟨e, mem_preorderAll.mpr ⟨c, hc, he⟩, hex⟩

theorem mem_exposedAll {hidden : BlockId → Bool} {os : List Outline} {x : BlockId} :
    x ∈ exposedAll hidden os ↔ ∃ c ∈ os, hidden c.id = false ∧ x ∈ c.exposed hidden := by
  induction os with
  | nil => simp [exposedAll]
  | cons c cs ih =>
    rw [exposedAll, List.mem_append, ih]
    by_cases hc : hidden c.id = true <;> simp [hc]

theorem Mirrors.mem_exposed_iff {o : Outline} (h : Mirrors look o) (ht : IsTree look root)
    {hidden : BlockId → Bool} {x : BlockId} :
    x ∈ o.exposed hidden ↔ Reach look o.id x ∧
      ¬ ∃ y, Reach look o.id y ∧ y ≠ o.id ∧ hidden y = true ∧ Reach look y x := by
  induction h with
  | @node id b cs hb hc hcs ih =>
    have hm : Mirrors look (.node id b cs) := .node hb hc hcs
    have hchild : ∀ c ∈ cs, c.id ∈ b.children := by
      intro c hcm
      rw [← hc]
      exact List.mem_map_of_mem hcm
    have hbelow : ∀ {c x : BlockId}, c ∈ b.children → Reach look c x → Reach look id x ∧ x ≠ id := by
      intro c x hcm hx
      refine ⟨Reach.trans (.child .refl hb hcm) hx, ?_⟩
      rintro rfl
      exact ht.acyclic hb hcm hx
    rw [exposed, List.mem_cons, mem_exposedAll]
    constructor
    · rintro (rfl | ⟨c, hcm, hopen, hx⟩)
      · refine ⟨.refl, ?_⟩
        rintro ⟨y, hy, hne, _, hyx⟩
        obtain ⟨c, hcm, hcy⟩ := (below_iff hm ht).mp ⟨hy, hne⟩
        exact (hbelow (hchild c hcm) (hcy.trans hyx)).2 rfl
      · obtain ⟨hreach, hnone⟩ := (ih c hcm).mp hx
        refine ⟨(hbelow (hchild c hcm) hreach).1, ?_⟩
        rintro ⟨y, hy, hne, hhide, hyx⟩
        obtain ⟨d, hdm, hdy⟩ := (below_iff hm ht).mp ⟨hy, hne⟩
        have hcd := ht.eq_of_siblings_reach hb (hchild c hcm) (hchild d hdm) hreach (hdy.trans hyx)
        rw [← hcd] at hdy
        refine hnone ⟨y, hdy, ?_, hhide, hyx⟩
        rintro rfl
        rw [hopen] at hhide
        cases hhide
    · rintro ⟨hreach, hnone⟩
      by_cases hx : x = id
      · exact .inl hx
      · obtain ⟨c, hcm, hcx⟩ := (below_iff hm ht).mp ⟨hreach, hx⟩
        refine .inr ⟨c, hcm, ?_, (ih c hcm).mpr ⟨hcx, ?_⟩⟩
        · have hcid := hbelow (hchild c hcm) (.refl : Reach look c.id c.id)
          by_contra hhide
          exact hnone ⟨c.id, hcid.1, hcid.2, by simpa using hhide, hcx⟩
        · rintro ⟨y, hy, _, hhide, hyx⟩
          obtain ⟨hyid, hyne⟩ := hbelow (hchild c hcm) hy
          exact hnone ⟨y, hyid, hyne, hhide, hyx⟩

end Outline

namespace State

theorem output_append (s : State) (id x : BlockId) (t : Text) :
    (s.append id t).output x = if x = id then s.output x ++ t else s.output x := by
  rw [output, append, Dict.get?_insert]
  split
  · rename_i hx
    rw [hx]
    rfl
  · rfl

theorem output_clearOutput (s : State) (id x : BlockId) :
    (s.clearOutput id).output x = if x = id then [] else s.output x := by
  rw [output, clearOutput]
  split
  · rename_i hx
    rw [hx, Dict.get?_erase_self]
    rfl
  · rename_i hx
    rw [Dict.get?_erase_ne _ hx]
    rfl

def withOutput (s : State) (id : BlockId) (t : Text) : State :=
  { s with outputs := s.outputs.insert id t }

theorem output_withOutput (s : State) (id x : BlockId) (t : Text) :
    (s.withOutput id t).output x = if x = id then t else s.output x := by
  rw [output, withOutput, Dict.get?_insert]
  split
  · rfl
  · rfl

theorem append_withOutput (s : State) {id x : BlockId} (hx : x ≠ id) (t u : Text) :
    (s.withOutput x t).append id u = (s.append id u).withOutput x t := by
  rw [append, output_withOutput, if_neg (Ne.symm hx), withOutput, append, withOutput,
    Dict.insert_comm _ hx]

theorem clearOutput_withOutput (s : State) {id x : BlockId} (hx : x ≠ id) (t : Text) :
    (s.withOutput x t).clearOutput id = (s.clearOutput id).withOutput x t := by
  rw [clearOutput, withOutput, clearOutput, withOutput, Dict.erase_insert _ hx]

theorem isHidden_unmark (s : State) (id x : BlockId) :
    (s.unmark id).isHidden x = (s.isHidden x && decide (x ≠ id)) := by
  rw [isHidden, isHidden, unmark]
  by_cases hx : x = id
  · subst hx
    simp
  · simp [Dict.get?_erase_ne _ hx, hx]

theorem isTouched_unmark (s : State) (id x : BlockId) :
    (s.unmark id).isTouched x = (s.isTouched x && decide (x ≠ id)) := by
  rw [isTouched, isTouched, unmark]
  by_cases hx : x = id
  · subst hx
    simp
  · simp [Dict.get?_erase_ne _ hx, hx]

theorem isTouched_of_isHidden {s : State} {id : BlockId} (h : s.isHidden id = true) :
    s.isTouched id = false := by
  rw [isHidden, decide_eq_true_eq] at h
  rw [isTouched, h]
  rfl

theorem isHidden_of_isTouched {s : State} {id : BlockId} (h : s.isTouched id = true) :
    s.isHidden id = false := by
  rw [isTouched, decide_eq_true_eq] at h
  rw [isHidden, h]
  rfl

def putOut (s : State) (id : BlockId) (t : Text) : State :=
  if (s.append id t).isTouched id then (s.append id t).unmark id else s.append id t

theorem putOut_withOutput {s : State} {id x : BlockId} (hx : x ≠ id) (t u : Text) :
    (s.withOutput x t).putOut id u = (s.putOut id u).withOutput x t := by
  rw [putOut, putOut, append_withOutput _ hx]
  by_cases ht : (s.append id u).isTouched id = true
  · rw [if_pos ht, if_pos (show ((s.append id u).withOutput x t).isTouched id = true from ht)]
    rfl
  · rw [if_neg ht, if_neg (show ¬ ((s.append id u).withOutput x t).isTouched id = true from ht)]

variable (s : State) (id x : BlockId) (t : Text)

theorem putOut_vars : (s.putOut id t).locals = s.locals ∧ (s.putOut id t).globals = s.globals ∧
    (s.putOut id t).rootRendered = s.rootRendered := by
  rw [putOut]
  split
  · exact ⟨rfl, rfl, rfl⟩
  · exact ⟨rfl, rfl, rfl⟩

theorem output_putOut :
    (s.putOut id t).output x = if x = id then s.output x ++ t else s.output x := by
  rw [putOut, ← output_append]
  split
  · rfl
  · rfl

theorem isHidden_putOut : (s.putOut id t).isHidden x = s.isHidden x := by
  rw [putOut]
  split
  · rename_i ht
    rw [isHidden_unmark]
    by_cases hx : x = id
    · have hid : s.isHidden id = false := isHidden_of_isTouched ht
      simp [hx, hid]
    · rw [decide_eq_true hx, Bool.and_true]
      rfl
  · rfl

theorem isTouched_putOut : (s.putOut id t).isTouched x = (s.isTouched x && decide (x ≠ id)) := by
  rw [putOut]
  split
  · exact isTouched_unmark _ id x
  · rename_i ht
    by_cases hx : x = id
    · have hid : s.isTouched id = false := Bool.eq_false_iff.mpr ht
      rw [hx, hid, Bool.false_and]
      exact hid
    · rw [decide_eq_true hx, Bool.and_true]
      rfl

end State

namespace Pass

open Reference (listed listed_append listed_cons)

variable {entered entered' : List (BlockId × Block)} {below below' shown shown' put : List BlockId}
  {p q r : Pass}

/--
What a stretch of a render changes, by the blocks that were entered, those that were walked as
children, and those that might be put out. Of the blocks in `put` the output is left open.
-/
structure Changes (entered : List (BlockId × Block)) (below shown put : List BlockId) (p q : Pass) :
    Prop where
  locals : ∀ x, q.state.locals.get? x =
    if x ∈ listed entered then none else p.state.locals.get? x
  globals : q.state.globals = p.state.globals
  rootRendered : q.state.rootRendered =
    (p.state.rootRendered || decide (rootId ∈ entered.map (·.1)))
  output : ∀ x ∉ put, q.state.output x =
    if x ∈ below ∧ p.state.isHidden x = false then [] else p.state.output x
  hidden : ∀ x, q.state.isHidden x = (p.state.isHidden x && decide (x ∉ below))
  touched : ∀ x, q.state.isTouched x = (p.state.isTouched x && decide (x ∉ shown))

theorem changes_of_state (h : q.state = p.state) : Changes [] [] [] [] p q := by
  constructor <;> simp [h, Reference.listed]

theorem Changes.leave {id : BlockId} (h : Changes entered below shown [] p q)
    (ht : q.state.isTouched id = false) : Changes entered below (id :: shown) [id] p q where
  locals := h.locals
  globals := h.globals
  rootRendered := h.rootRendered
  output := fun x _ => h.output x List.not_mem_nil
  hidden := h.hidden
  touched := by
    intro x
    have hx := h.touched x
    by_cases he : x = id
    · subst he
      simp [ht]
    · simp [hx, he]

theorem Changes.congr (h : Changes entered below shown put p q)
    (hs : ∀ x, x ∈ shown' ↔ x ∈ shown) : Changes entered below shown' put p q where
  locals := h.locals
  globals := h.globals
  rootRendered := h.rootRendered
  output := h.output
  hidden := h.hidden
  touched := by
    intro x
    rw [h.touched x]
    simp only [hs]

theorem Changes.trans (h₁ : Changes entered below shown [] p q)
    (h₂ : Changes entered' below' shown' put q r) (hd : ∀ x ∈ below', x ∉ below) :
    Changes (entered ++ entered') (below ++ below') (shown ++ shown') put p r where
  locals := by
    intro x
    rw [h₂.locals, h₁.locals, listed_append]
    by_cases h : x ∈ listed entered <;> by_cases h' : x ∈ listed entered' <;> simp [h, h']
  globals := h₂.globals.trans h₁.globals
  rootRendered := by
    rw [h₂.rootRendered, h₁.rootRendered, Bool.or_assoc, List.map_append]
    simp only [List.mem_append, Bool.decide_or]
  output := by
    intro x hx
    rw [h₂.output x hx, h₁.output x List.not_mem_nil, h₁.hidden]
    have hx' := hd x
    by_cases h : x ∈ below <;> by_cases h' : x ∈ below' <;> simp_all
  hidden := by
    intro x
    rw [h₂.hidden, h₁.hidden, Bool.and_assoc, ← Bool.decide_and]
    simp only [List.mem_append, not_or]
  touched := by
    intro x
    rw [h₂.touched, h₁.touched, Bool.and_assoc, ← Bool.decide_and]
    simp only [List.mem_append, not_or]

theorem state_takeLocals (names : List Text) (p : Pass) :
    ∃ pool : Pool, (takeLocals names p).2.state = { p.state with locals := pool } ∧
      ∀ x, pool.get? x = if x ∈ names then none else p.state.locals.get? x := by
  induction names generalizing p with
  | nil => exact ⟨p.state.locals, rfl, fun x => rfl⟩
  | cons name names ih =>
    rw [takeLocals]
    split
    · rename_i hv
      obtain ⟨pool, hpool, hget⟩ := ih p
      refine ⟨pool, hpool, ?_⟩
      intro x
      rw [hget]
      by_cases hx : x = name
      · simp [hx, hv]
      · simp [hx]
    · rename_i v hv
      obtain ⟨pool, hpool, hget⟩ := ih { p with
        state := { p.state with locals := p.state.locals.erase name }
        values := p.values.insert name v }
      refine ⟨pool, hpool, ?_⟩
      intro x
      rw [hget]
      by_cases hx : x = name
      · simp [hx]
      · simp [hx, Dict.get?_erase_ne _ hx]

theorem changes_takeLocals (id : BlockId) (b : Block) (p : Pass) :
    Changes [(id, b)] [] [] [] p (takeLocals b.vars (p.enter id)).2 := by
  obtain ⟨pool, hstate, hpool⟩ := state_takeLocals b.vars (p.enter id)
  have henter : (p.enter id).state =
      { p.state with rootRendered := p.state.rootRendered || decide (rootId = id) } := by
    rw [enter]
    by_cases hid : id = rootId
    · simp [hid]
    · simp [hid, Ne.symm hid]
  rw [henter] at hstate hpool
  refine ⟨?_, ?_, ?_, ?_, ?_, ?_⟩
  · intro x
    rw [hstate]
    simpa [Reference.listed] using hpool x
  · rw [hstate]
  · rw [hstate]
    simp
  · intro x _
    rw [hstate, if_neg (fun h => List.not_mem_nil h.1)]
    rfl
  · intro x
    rw [hstate]
    simp [State.isHidden]
  · intro x
    rw [hstate]
    simp [State.isTouched]

theorem exists_emit (e : Engine) (table : CallTable) (quiet : Bool) (id : BlockId) (b : Block)
    (parts : Pool) (p : Pass) : ∃ text values log,
      emit e table quiet id b parts p = ⟨p.state.putOut id text, values, log⟩ := by
  have hstate := state_evaluateAll e table b.calls parts p
  rw [emit]
  generalize evaluateAll e table b.calls parts p = ev at hstate
  obtain ⟨parts', p'⟩ := ev
  dsimp only at hstate ⊢
  rw [hstate]
  exact ⟨_, _, _, rfl⟩

theorem changes_emit (e : Engine) (table : CallTable) (quiet : Bool) (id : BlockId) (b : Block)
    (parts : Pool) (p : Pass) : Changes [] [] [id] [id] p (emit e table quiet id b parts p) := by
  obtain ⟨text, values, log, hemit⟩ := exists_emit e table quiet id b parts p
  rw [hemit]
  obtain ⟨hlocals, hglobals, hroot⟩ := p.state.putOut_vars id text
  exact {
    locals := fun x => (congrArg (·.get? x) hlocals).trans (if_neg List.not_mem_nil).symm
    globals := hglobals
    rootRendered := hroot.trans (Bool.or_false _).symm
    output := by
      intro x hx
      rw [if_neg fun h => List.not_mem_nil h.1]
      refine (p.state.output_putOut id x text).trans (if_neg ?_)
      exact fun he => hx (List.mem_singleton.mpr he)
    hidden := fun x => (p.state.isHidden_putOut id x text).trans (Bool.and_true _).symm
    touched := by
      intro x
      simp only [List.mem_singleton]
      exact p.state.isTouched_putOut id x text }

variable {id : BlockId}

theorem Changes.unmark (h : Changes entered below [] [] p q) (hid : p.state.isHidden id = true) :
    Changes entered (id :: below) [] [] p { q with state := q.state.unmark id } where
  locals := h.locals
  globals := h.globals
  rootRendered := h.rootRendered
  output := by
    intro x hx
    refine (h.output x hx).trans ?_
    by_cases he : x = id
    · simp [he, hid]
    · simp [he]
  hidden := by
    intro x
    change (q.state.unmark id).isHidden x = _
    rw [State.isHidden_unmark, h.hidden, Bool.and_assoc, ← Bool.decide_and]
    simp only [List.mem_cons, not_or, And.comm]
  touched := by
    intro x
    change (q.state.unmark id).isTouched x = _
    rw [State.isTouched_unmark, h.touched]
    by_cases he : x = id
    · simp [he, State.isTouched_of_isHidden hid]
    · simp [he]

theorem Changes.clearOutput (h : Changes entered below shown put p q) (hput : ∀ x ∈ put, x = id)
    (hid : p.state.isHidden id = false) :
    Changes entered (id :: below) shown [] p { q with state := q.state.clearOutput id } where
  locals := h.locals
  globals := h.globals
  rootRendered := h.rootRendered
  output := by
    intro x _
    change (q.state.clearOutput id).output x = _
    rw [State.output_clearOutput]
    by_cases he : x = id
    · simp [he, hid]
    · rw [if_neg he, h.output x fun hx => he (hput x hx)]
      simp [he]
  hidden := by
    intro x
    refine (h.hidden x).trans ?_
    by_cases he : x = id
    · simp [he, hid]
    · simp [he]
  touched := h.touched

mutual

theorem changes_block (e : Engine) (table : CallTable) (quiet silent : Bool) (o : Outline)
    (hn : (o.preorder.map (·.1)).Nodup) (p : Pass) :
    Changes o.preorder o.inner (if silent then [] else o.exposed p.state.isHidden)
      (if silent then [] else [o.id]) p (block e table quiet silent o p).2 := by
  cases o with
  | node id b cs =>
    rw [Outline.preorder, List.map_cons, List.nodup_cons] at hn
    have hown := changes_takeLocals id b p
    rw [block]
    generalize takeLocals b.vars (p.enter id) = taken at hown ⊢
    obtain ⟨own, p₁⟩ := taken
    dsimp only at hown ⊢
    have hall := changes_blocks e table silent cs hn.2 false ∅ p₁
    have hbefore := hown.trans hall fun x _ => List.not_mem_nil
    rw [List.nil_append, List.nil_append] at hbefore
    have hexposed : Outline.exposedAll p₁.state.isHidden cs =
        Outline.exposedAll p.state.isHidden cs := by
      refine Outline.exposedAll_congr cs fun x _ => ?_
      rw [hown.hidden]
      simp
    rw [hexposed] at hbefore
    generalize blocks e table silent cs false ∅ p₁ = walked at hbefore ⊢
    obtain ⟨full, parts, p₂⟩ := walked
    dsimp only at hbefore ⊢
    have hglobals := hbefore.trans (changes_of_state (state_addGlobals b.vars p₂))
      fun x hx => absurd hx List.not_mem_nil
    simp only [List.append_nil] at hglobals
    cases silent with
    | true => exact hglobals
    | false =>
      by_cases hput : emits e (addGlobals b.vars p₂).state id (!(own || full)) = true
      · have hall := hglobals.trans (changes_emit e table quiet id b parts (addGlobals b.vars p₂))
          fun x hx => absurd hx List.not_mem_nil
        rw [List.append_nil, List.append_nil] at hall
        rw [hput]
        refine hall.congr fun x => ?_
        simp [Outline.exposed, or_comm]
      · -- A block that is left out was not touched.
        rw [Bool.not_eq_true] at hput
        rw [hput]
        refine hglobals.leave ?_
        rw [emits, Bool.or_eq_false_iff] at hput
        exact hput.2

theorem changes_blocks (e : Engine) (table : CallTable) (silent : Bool) (os : List Outline)
    (hn : ((Outline.preorderAll os).map (·.1)).Nodup) (full : Bool) (parts : Pool) (p : Pass) :
    Changes (Outline.preorderAll os) ((Outline.preorderAll os).map (·.1))
      (if silent then [] else Outline.exposedAll p.state.isHidden os) [] p
      (blocks e table silent os full parts p).2.2 := by
  cases os with
  | nil =>
    have h : Changes [] [] [] [] p p := changes_of_state rfl
    cases silent with
    | true => exact h
    | false => exact h
  | cons c cs =>
    rw [Outline.preorderAll, List.map_append, List.nodup_append] at hn
    obtain ⟨hc, hcs, hapart⟩ := hn
    rw [Outline.preorderAll, List.map_append, Outline.ids_eq, blocks]
    rw [Outline.ids_eq] at hapart
    have hseparate : ∀ x ∈ (Outline.preorderAll cs).map (·.1), x ∉ c.id :: c.inner :=
      fun x hx hxc => hapart x hxc x hx rfl
    -- A walk of the first child clears marks of its own blocks only, so the others stay hidden or not.
    have hexposed : ∀ {shown put : List BlockId} {q : Pass},
        Changes c.preorder (c.id :: c.inner) shown put p q →
        Outline.exposedAll q.state.isHidden cs = Outline.exposedAll p.state.isHidden cs := by
      intro shown put q h
      refine Outline.exposedAll_congr cs fun x hx => ?_
      rw [h.hidden]
      simp [hseparate x hx]
    dsimp only
    rw [Outline.exposedAll]
    by_cases hh : p.state.isHidden c.id = true
    · have hwalk := (changes_block e table true true c hc p).unmark hh
      have hrest := hwalk.trans (changes_blocks e table silent cs hcs full
        (parts.insert (childName c.block.name) []) _) hseparate
      rw [hexposed hwalk] at hrest
      rw [if_pos hh, if_pos hh]
      exact hrest
    · have hshow : p.state.isHidden c.id = false := Bool.eq_false_iff.mpr hh
      have hput : ∀ x ∈ if silent then [] else [c.id], x = c.id := by simp
      have hwalk := (changes_block e table true silent c hc p).clearOutput hput hshow
      have hrest := hwalk.trans (changes_blocks e table silent cs hcs
        (full || decide ((block e table true silent c p).2.state.output c.id ≠ []))
        (parts.insert (childName c.block.name)
          ((block e table true silent c p).2.state.output c.id)) _) hseparate
      rw [hexposed hwalk] at hrest
      rw [if_neg hh, if_neg hh]
      cases silent with
      | true => exact hrest
      | false => exact hrest

end

def withOutput (p : Pass) (x : BlockId) (t : Text) : Pass :=
  { p with state := p.state.withOutput x t }

theorem enter_withOutput (id x : BlockId) (t : Text) (p : Pass) :
    (p.withOutput x t).enter id = (p.enter id).withOutput x t := by
  rw [enter, enter]
  split <;> rfl

theorem takeLocals_withOutput (names : List Text) (x : BlockId) (t : Text) (p : Pass) :
    takeLocals names (p.withOutput x t) =
      ((takeLocals names p).1, (takeLocals names p).2.withOutput x t) := by
  induction names generalizing p with
  | nil => rfl
  | cons name names ih =>
    have hlocals : (p.withOutput x t).state.locals = p.state.locals := rfl
    rw [takeLocals, takeLocals, hlocals]
    cases p.state.locals.get? name with
    | none => exact ih p
    | some v =>
      have h := ih { p with
        state := { p.state with locals := p.state.locals.erase name }
        values := p.values.insert name v }
      exact congrArg (fun r => (true, r.2)) h

theorem addGlobals_withOutput (names : List Text) (x : BlockId) (t : Text) (p : Pass) :
    addGlobals names (p.withOutput x t) = (addGlobals names p).withOutput x t := by
  induction names generalizing p with
  | nil => rfl
  | cons name names ih =>
    have hglobals : (p.withOutput x t).state.globals = p.state.globals := rfl
    rw [addGlobals, addGlobals, hglobals]
    cases p.state.globals.get? name with
    | none => exact ih p
    | some v => exact ih { p with values := p.values.insert name v }

theorem evaluate_withOutput (e : Engine) (table : CallTable) (id : CallId) (x : BlockId) (t : Text)
    (p : Pass) : evaluate e table id (p.withOutput x t) =
      ((evaluate e table id p).1, (evaluate e table id p).2.withOutput x t) := by
  have hvalues : (p.withOutput x t).values = p.values := rfl
  rw [evaluate, evaluate, hvalues]
  split <;> rfl

theorem evaluateAll_withOutput (e : Engine) (table : CallTable) (ids : List CallId) (parts : Pool)
    (x : BlockId) (t : Text) (p : Pass) : evaluateAll e table ids parts (p.withOutput x t) =
      ((evaluateAll e table ids parts p).1, (evaluateAll e table ids parts p).2.withOutput x t) := by
  induction ids generalizing parts p with
  | nil => rfl
  | cons id ids ih =>
    rw [evaluateAll, evaluateAll, evaluate_withOutput]
    obtain ⟨result, p'⟩ := evaluate e table id p
    cases result with
    | some result => exact ih _ p'
    | none => exact ih _ p'

theorem emit_withOutput (e : Engine) (table : CallTable) (quiet : Bool) {id x : BlockId}
    (hx : x ≠ id) (b : Block) (parts : Pool) (t : Text) (p : Pass) :
    emit e table quiet id b parts (p.withOutput x t) =
      (emit e table quiet id b parts p).withOutput x t := by
  rw [emit, emit, evaluateAll_withOutput]
  generalize evaluateAll e table b.calls parts p = ev
  obtain ⟨parts', p'⟩ := ev
  exact congrArg (fun s => { p' with state := s }) (State.putOut_withOutput hx t _)

theorem output_emit (e : Engine) (table : CallTable) (quiet : Bool) (id : BlockId) (b : Block)
    (parts : Pool) (p : Pass) :
    ∃ chunk, (emit e table quiet id b parts p).state.output id = p.state.output id ++ chunk ∧
      ∀ t, (emit e table quiet id b parts (p.withOutput id t)).state.output id = t ++ chunk := by
  have hput : ∀ (s : State) (u : Text), (s.putOut id u).output id = s.output id ++ u := fun s u =>
    (s.output_putOut id id u).trans (if_pos rfl)
  have hstate := state_evaluateAll e table b.calls parts p
  simp only [emit, evaluateAll_withOutput]
  generalize evaluateAll e table b.calls parts p = ev at hstate
  obtain ⟨parts', p'⟩ := ev
  dsimp only at hstate ⊢
  refine ⟨if quiet then e.dialect.splice parts'.get? b.content
    else substitute e p'.values (e.dialect.splice parts'.get? b.content), ?_, ?_⟩
  · refine (hput p'.state _).trans ?_
    rw [hstate]
  · intro t
    refine (hput (p'.state.withOutput id t) _).trans ?_
    rw [State.output_withOutput, if_pos rfl]
    rfl

mutual

theorem block_withOutput (e : Engine) (table : CallTable) (quiet silent : Bool) (o : Outline)
    {x : BlockId} (hx : x ∉ o.preorder.map (·.1)) (t : Text) (p : Pass) :
    block e table quiet silent o (p.withOutput x t) =
      ((block e table quiet silent o p).1,
        (block e table quiet silent o p).2.withOutput x t) := by
  cases o with
  | node id b cs =>
    rw [Outline.preorder, List.map_cons, List.mem_cons, not_or] at hx
    rw [block, block, enter_withOutput, takeLocals_withOutput]
    dsimp only
    rw [blocks_withOutput e table silent cs hx.2]
    dsimp only
    rw [addGlobals_withOutput, emit_withOutput e table quiet hx.1]
    have hemits : ∀ (q : Pass) (isEmpty : Bool),
        emits e (q.withOutput x t).state id isEmpty = emits e q.state id isEmpty :=
      fun _ _ => rfl
    rw [hemits]
    split <;> rfl

theorem blocks_withOutput (e : Engine) (table : CallTable) (silent : Bool) (os : List Outline)
    {x : BlockId} (hx : x ∉ (Outline.preorderAll os).map (·.1)) (full : Bool) (parts : Pool)
    (t : Text) (p : Pass) :
    blocks e table silent os full parts (p.withOutput x t) =
      ((blocks e table silent os full parts p).1, (blocks e table silent os full parts p).2.1,
        (blocks e table silent os full parts p).2.2.withOutput x t) := by
  cases os with
  | nil => rfl
  | cons c cs =>
    rw [Outline.preorderAll, List.map_append, List.mem_append, not_or] at hx
    have hid : x ≠ c.id := by
      rintro rfl
      exact hx.1 (List.mem_map_of_mem c.head_mem_preorder)
    have hhidden : (p.withOutput x t).state.isHidden c.id = p.state.isHidden c.id := rfl
    have houtput : ∀ q : Pass, (q.withOutput x t).state.output c.id = q.state.output c.id := by
      intro q
      exact (q.state.output_withOutput x c.id t).trans (if_neg (Ne.symm hid))
    have hclear : ∀ q : Pass, { q.withOutput x t with
          state := (q.withOutput x t).state.clearOutput c.id } =
        { q with state := q.state.clearOutput c.id }.withOutput x t := by
      intro q
      exact congrArg (fun s => { q with state := s }) (q.state.clearOutput_withOutput hid t)
    have hunmark : ∀ q : Pass, { q.withOutput x t with
          state := (q.withOutput x t).state.unmark c.id } =
        { q with state := q.state.unmark c.id }.withOutput x t := fun _ => rfl
    rw [blocks, blocks, hhidden]
    by_cases hh : p.state.isHidden c.id = true
    · rw [if_pos hh, if_pos hh, block_withOutput e table true true c hx.1]
      dsimp only
      rw [hunmark]
      exact blocks_withOutput e table silent cs hx.2 _ _ t _
    · rw [if_neg hh, if_neg hh, block_withOutput e table true silent c hx.1]
      dsimp only
      rw [hclear, houtput]
      exact blocks_withOutput e table silent cs hx.2 _ _ t _

end

theorem output_block (e : Engine) (table : CallTable) (quiet : Bool) (o : Outline)
    (hn : (o.preorder.map (·.1)).Nodup) (p : Pass) :
    ∃ chunk,
      (block e table quiet false o p).2.state.output o.id = p.state.output o.id ++ chunk ∧
      ∀ t, (block e table quiet false o (p.withOutput o.id t)).2.state.output o.id = t ++ chunk := by
  cases o with
  | node id b cs =>
    rw [Outline.preorder, List.map_cons, List.nodup_cons] at hn
    have hown : ∀ q : Pass, (takeLocals b.vars (q.enter id)).2.state.output id = q.state.output id :=
      fun q => ((sameAt_takeLocals b.vars (q.enter id) id).trans (sameAt_enter id q id)).output
    have hwalk := (sameAt_blocks e table false cs hn.1 false ∅
      (takeLocals b.vars (p.enter id)).2).output.trans (hown p)
    simp only [block, Outline.id, enter_withOutput, takeLocals_withOutput,
      blocks_withOutput e table false cs hn.1, addGlobals_withOutput, Bool.false_or]
    generalize blocks e table false cs false ∅ (takeLocals b.vars (p.enter id)).2 = walked at hwalk
    obtain ⟨full, parts, p₂⟩ := walked
    dsimp only at hwalk ⊢
    have hglobals : (addGlobals b.vars p₂).state.output id = p.state.output id := by
      rw [state_addGlobals, hwalk]
    generalize addGlobals b.vars p₂ = p₃ at hglobals
    have hemits : ∀ (t : Text) (isEmpty : Bool),
        emits e (p₃.withOutput id t).state id isEmpty = emits e p₃.state id isEmpty :=
      fun _ _ => rfl
    simp only [hemits]
    by_cases hput : emits e p₃.state id (!((takeLocals b.vars (p.enter id)).1 || full)) = true
    · obtain ⟨chunk, hchunk, hall⟩ := output_emit e table quiet id b parts p₃
      rw [hglobals] at hchunk
      rw [hput]
      exact ⟨chunk, hchunk, hall⟩
    · rw [Bool.not_eq_true] at hput
      rw [hput]
      refine ⟨[], hglobals.trans (List.append_nil _).symm, ?_⟩
      intro t
      have ht := p₃.state.output_withOutput id id t
      rw [if_pos rfl] at ht
      exact ht.trans (List.append_nil t).symm

end Pass

end BlockTemplate
