import BlockTemplate.Proofs.Render.Effect
import Mathlib.Logic.Relation

/-!
# What a render has at hand

A render moves on in four ways: it takes a local variable, copies a global one, evaluates a call, or
notes something about blocks. So each value at hand was set before, and each result is that of a call
in the log.
-/

namespace BlockTemplate.Pass

open Relation (ReflTransGen)

variable {e : Engine} {table : CallTable} {p q : Pass}

inductive Move (e : Engine) (table : CallTable) (p : Pass) : Pass → Prop
  | take {name v : Text} : p.state.locals.get? name = some v →
    Move e table p { p with
      state := { p.state with locals := p.state.locals.erase name }
      values := p.values.insert name v }
  | copy {name v : Text} : p.state.globals.get? name = some v →
    Move e table p { p with values := p.values.insert name v }
  | call {id : CallId} {c : Call} : p.values.get? id.memo = none → table.get? id = some c →
    Move e table p { p with
      values := p.values.insert id.memo (apply e p.log c.name (arguments e p.values c))
      log := p.log ++ [⟨id, c.name, arguments e p.values c⟩] }
  | note {s : State} : s.locals = p.state.locals → s.globals = p.state.globals →
    Move e table p { p with state := s }

def Moves (e : Engine) (table : CallTable) : Pass → Pass → Prop := ReflTransGen (Move e table)

theorem Moves.refl (p : Pass) : Moves e table p p := ReflTransGen.refl

theorem Moves.trans {r : Pass} (h₁ : Moves e table p q) (h₂ : Moves e table q r) :
    Moves e table p r := ReflTransGen.trans h₁ h₂

theorem Move.moves (h : Move e table p q) : Moves e table p q := ReflTransGen.single h

theorem moves_note {s : State} (hl : s.locals = p.state.locals)
    (hg : s.globals = p.state.globals) : Moves e table p { p with state := s } :=
  (Move.note hl hg).moves

variable (e) (table)

theorem moves_enter (id : BlockId) (p : Pass) : Moves e table p (p.enter id) := by
  rw [enter]
  split
  · exact moves_note rfl rfl
  · exact .refl _

theorem moves_takeLocals (names : List Text) (p : Pass) :
    Moves e table p (takeLocals names p).2 := by
  induction names generalizing p with
  | nil => exact .refl _
  | cons name names ih =>
    rw [takeLocals]
    split
    · exact ih p
    · rename_i v hv
      exact (Move.take hv).moves.trans (ih _)

theorem moves_addGlobals (names : List Text) (p : Pass) :
    Moves e table p (addGlobals names p) := by
  induction names generalizing p with
  | nil => exact .refl _
  | cons name names ih =>
    rw [addGlobals]
    split
    · exact ih p
    · rename_i v hv
      exact (Move.copy hv).moves.trans (ih _)

theorem moves_evaluate (id : CallId) (p : Pass) : Moves e table p (evaluate e table id p).2 := by
  rw [evaluate]
  split
  · exact .refl _
  · exact .refl _
  · rename_i c hvalue hc
    exact (Move.call hvalue hc).moves

theorem moves_evaluateAll (ids : List CallId) (parts : Pool) (p : Pass) :
    Moves e table p (evaluateAll e table ids parts p).2 := by
  induction ids generalizing parts p with
  | nil => exact .refl _
  | cons id ids ih =>
    have hfirst := moves_evaluate e table id p
    rw [evaluateAll]
    split
    · rename_i result q hq
      rw [hq] at hfirst
      exact hfirst.trans (ih _ q)
    · rename_i q hq
      rw [hq] at hfirst
      exact hfirst.trans (ih _ q)

theorem moves_emit (inner : Bool) (id : BlockId) (b : Block) (parts : Pool) (p : Pass) :
    Moves e table p (emit e table inner id b parts p) := by
  have hall := moves_evaluateAll e table b.calls parts p
  have hstate := state_evaluateAll e table b.calls parts p
  rw [emit]
  generalize evaluateAll e table b.calls parts p = evaluated at hall hstate
  obtain ⟨parts', p'⟩ := evaluated
  dsimp only at hall hstate ⊢
  obtain ⟨hlocals, hglobals, -⟩ := p'.state.putOut_vars id (if inner then
    e.dialect.splice parts'.get? b.content
    else substitute e p'.values (e.dialect.splice parts'.get? b.content))
  exact hall.trans (moves_note hlocals hglobals)

mutual

theorem moves_block (inner silent : Bool) (o : Outline) (p : Pass) :
    Moves e table p (block e table inner silent o p).2 := by
  cases o with
  | node id b cs =>
    have htake := (moves_enter e table id p).trans
      (moves_takeLocals e table b.vars (p.enter id))
    rw [block]
    generalize takeLocals b.vars (p.enter id) = taken at htake
    obtain ⟨own, p₁⟩ := taken
    have hall := moves_blocks silent cs false ∅ p₁
    dsimp only at htake ⊢
    generalize blocks e table silent cs false ∅ p₁ = rest at hall
    obtain ⟨full, parts, p₂⟩ := rest
    have hleft := (htake.trans hall).trans (moves_addGlobals e table b.vars p₂)
    dsimp only
    split
    · exact hleft
    · exact hleft.trans (moves_emit e table inner id b parts _)

theorem moves_blocks (silent : Bool) (os : List Outline) (full : Bool) (parts : Pool) (p : Pass) :
    Moves e table p (blocks e table silent os full parts p).2.2 := by
  cases os with
  | nil => exact .refl _
  | cons c cs =>
    have hunmark : ∀ r : Pass, Moves e table r { r with state := r.state.unmark c.id } :=
      fun r => moves_note rfl rfl
    have hclear : ∀ r : Pass, Moves e table r { r with state := r.state.clearOutput c.id } :=
      fun r => moves_note rfl rfl
    rw [blocks]
    dsimp only
    split
    · exact ((moves_block true true c p).trans (hunmark _)).trans (moves_blocks silent cs _ _ _)
    · exact ((moves_block true silent c p).trans (hclear _)).trans (moves_blocks silent cs _ _ _)

end

variable {e} {table}

theorem Move.log (h : Move e table p q) : p.log <+: q.log := by
  cases h with
  | take _ => exact List.prefix_rfl
  | copy _ => exact List.prefix_rfl
  | call _ _ => exact List.prefix_append _ _
  | note _ _ => exact List.prefix_rfl

theorem Moves.log (h : Moves e table p q) : p.log <+: q.log := by
  induction h with
  | refl => exact List.prefix_rfl
  | tail _ hmove ih => exact ih.trans hmove.log

variable {before before' after after' : CallLog} {id : CallId} {result : Text}
  {P : Text → Text → Prop}

def Made (e : Engine) (before after : CallLog) (id : CallId) (result : Text) : Prop :=
  ∃ l i, before <+: l ∧ l ++ [i] <+: after ∧ i.id = id ∧ apply e l i.name i.args = result

theorem Made.mono (h : Made e before after id result) (hb : before' <+: before)
    (ha : after <+: after') : Made e before' after' id result := by
  obtain ⟨l, i, hl, hi, hid, hresult⟩ := h
  exact ⟨l, i, hb.trans hl, hi.trans ha, hid, hresult⟩

def Answers (e : Engine) (P : Text → Text → Prop) (before after : CallLog) : Prop :=
  ∀ id result, Made e before after id result → P id.memo result

theorem Answers.mono (h : Answers e P before after) (hb : before <+: before')
    (ha : after' <+: after) : Answers e P before' after' :=
  fun id result hmade => h id result (hmade.mono hb ha)

structure Supplied (P : Text → Text → Prop) (p : Pass) : Prop where
  locals : ∀ x v, p.state.locals.get? x = some v → P x v
  globals : ∀ x v, p.state.globals.get? x = some v → P x v
  values : ∀ x v, p.values.get? x = some v → P x v

theorem of_get?_insert {d : Pool} {x y v w : Text} (h : (d.insert x v).get? y = some w)
    (hv : P x v) (hd : ∀ z u, d.get? z = some u → P z u) : P y w := by
  rw [Dict.get?_insert] at h
  split at h
  · rename_i hyx
    rw [← Option.some.inj h, hyx]
    exact hv
  · exact hd y w h

theorem of_get?_erase {d : Pool} {x y w : Text} (h : (d.erase x).get? y = some w)
    (hd : ∀ z u, d.get? z = some u → P z u) : P y w := by
  by_cases hyx : y = x
  · rw [hyx, Dict.get?_erase_self] at h
    cases h
  · rw [Dict.get?_erase_ne _ hyx] at h
    exact hd y w h

theorem Move.supplied (h : Move e table p q) (hp : Supplied P p) (ha : Answers e P p.log q.log) :
    Supplied P q := by
  cases h with
  | take hv =>
    exact ⟨fun x w hw => of_get?_erase hw hp.locals, hp.globals,
      fun x w hw => of_get?_insert hw (hp.locals _ _ hv) hp.values⟩
  | copy hv =>
    exact ⟨hp.locals, hp.globals, fun x w hw => of_get?_insert hw (hp.globals _ _ hv) hp.values⟩
  | call _ _ =>
    refine ⟨hp.locals, hp.globals, fun x w hw => of_get?_insert hw ?_ hp.values⟩
    exact ha _ _ ⟨p.log, _, List.prefix_rfl, List.prefix_rfl, rfl, rfl⟩
  | note hl hg => exact ⟨hl ▸ hp.locals, hg ▸ hp.globals, hp.values⟩

theorem Moves.supplied (h : Moves e table p q) (hp : Supplied P p)
    (ha : Answers e P p.log q.log) : Supplied P q := by
  induction h with
  | refl => exact hp
  | tail hmoves hmove ih =>
    have hlog := Moves.log hmoves
    exact hmove.supplied (ih (ha.mono List.prefix_rfl hmove.log)) (ha.mono hlog List.prefix_rfl)

theorem Moves.split {r : Pass} (h₁ : Moves e table p q) (h₂ : Moves e table q r)
    (hp : Supplied P p) (ha : Answers e P p.log r.log) :
    Answers e P p.log q.log ∧ Supplied P q ∧ Answers e P q.log r.log :=
  have hfirst := ha.mono List.prefix_rfl h₂.log
  ⟨hfirst, h₁.supplied hp hfirst, ha.mono h₁.log List.prefix_rfl⟩

end BlockTemplate.Pass
