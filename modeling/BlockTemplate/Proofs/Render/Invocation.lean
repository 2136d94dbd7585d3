import BlockTemplate.Template.Edit
import BlockTemplate.Template.Output

/-!
# What a render passes to callbacks

A render evaluates a call at most once, since the result stays among the values that it collects. A
callback that keeps its arguments is passed those of the table. They are the arguments as written but
for filters: a filter in an argument has become a call of its own before the argument is read.
-/

namespace BlockTemplate

def Invocation.Passes (e : Engine) (table : CallTable) (i : Invocation) : Prop :=
  ∃ c, table.get? i.id = some c ∧ i.name = c.name ∧
    ((e.callbacks.get? c.name).any (·.keepsArgs) = true → i.args = c.args)

namespace Pass

variable {e : Engine} {table : CallTable} {p q r : Pass}

/-- What the log of calls has gained: calls without a result before, each once, with one after. -/
structure Evaluates (e : Engine) (table : CallTable) (new : List Invocation) (p q : Pass) : Prop where
  log : q.log = p.log ++ new
  once : (new.map (·.id)).Nodup
  before : ∀ i ∈ new, p.values.contains i.id.memo = false
  after : ∀ i ∈ new, q.values.contains i.id.memo = true
  passes : ∀ i ∈ new, i.Passes e table
  keeps : ∀ x, p.values.contains x = true → q.values.contains x = true

theorem contains_insert (d : Pool) (x y : Text) (v : Text) :
    (d.insert x v).contains y = (decide (y = x) || d.contains y) := by
  rw [Dict.contains, Dict.contains, Dict.get?_insert]
  by_cases h : y = x <;> simp [h]

theorem evaluates_of_keeps (hl : q.log = p.log)
    (hk : ∀ x, p.values.contains x = true → q.values.contains x = true) :
    Evaluates e table [] p q where
  log := hl.trans (List.append_nil _).symm
  once := List.nodup_nil
  before := fun _ h => absurd h List.not_mem_nil
  after := fun _ h => absurd h List.not_mem_nil
  passes := fun _ h => absurd h List.not_mem_nil
  keeps := hk

theorem Evaluates.trans {new more : List Invocation} (h₁ : Evaluates e table new p q)
    (h₂ : Evaluates e table more q r) : Evaluates e table (new ++ more) p r where
  log := by rw [h₂.log, h₁.log, List.append_assoc]
  once := by
    rw [List.map_append]
    refine List.nodup_append.mpr ⟨h₁.once, h₂.once, ?_⟩
    intro x hx y hy hxy
    obtain ⟨i, hi, rfl⟩ := List.mem_map.mp hx
    obtain ⟨j, hj, rfl⟩ := List.mem_map.mp hy
    have hdone := h₁.after i hi
    rw [hxy, h₂.before j hj] at hdone
    cases hdone
  before := by
    intro i hi
    rcases List.mem_append.mp hi with hi | hi
    · exact h₁.before i hi
    · cases hp : p.values.contains i.id.memo with
      | false => rfl
      | true =>
        have hq := h₁.keeps _ hp
        rw [h₂.before i hi] at hq
        cases hq
  after := by
    intro i hi
    rcases List.mem_append.mp hi with hi | hi
    · exact h₂.keeps _ (h₁.after i hi)
    · exact h₂.after i hi
  passes := fun i hi => (List.mem_append.mp hi).elim (h₁.passes i) (h₂.passes i)
  keeps := fun x hx => h₂.keeps x (h₁.keeps x hx)

variable (e) (table)

theorem evaluates_takeLocals (names : List Text) (p : Pass) :
    Evaluates e table [] p (takeLocals names p).2 := by
  refine evaluates_of_keeps ?_ ?_
  · induction names generalizing p with
    | nil => rfl
    | cons name names ih =>
      rw [takeLocals]
      split
      · exact ih p
      · exact ih _
  · induction names generalizing p with
    | nil => exact fun x hx => hx
    | cons name names ih =>
      rw [takeLocals]
      split
      · exact ih p
      · intro x hx
        refine ih _ x ?_
        rw [contains_insert, hx, Bool.or_true]

theorem evaluates_addGlobals (names : List Text) (p : Pass) :
    Evaluates e table [] p (addGlobals names p) := by
  refine evaluates_of_keeps ?_ ?_
  · induction names generalizing p with
    | nil => rfl
    | cons name names ih =>
      rw [addGlobals]
      split
      · exact ih p
      · exact ih _
  · induction names generalizing p with
    | nil => exact fun x hx => hx
    | cons name names ih =>
      rw [addGlobals]
      split
      · exact ih p
      · intro x hx
        refine ih _ x ?_
        rw [contains_insert, hx, Bool.or_true]

theorem evaluates_evaluate (id : CallId) (p : Pass) :
    ∃ new, Evaluates e table new p (evaluate e table id p).2 := by
  rw [evaluate]
  split
  · exact ⟨[], evaluates_of_keeps rfl fun x hx => hx⟩
  · exact ⟨[], evaluates_of_keeps rfl fun x hx => hx⟩
  · rename_i c hvalue hc
    refine ⟨[⟨id, c.name, arguments e p.values c⟩], rfl,
      List.nodup_cons.mpr ⟨List.not_mem_nil, List.nodup_nil⟩, ?_, ?_, ?_, ?_⟩
    · intro i hi
      rw [List.mem_singleton.mp hi, Dict.contains, hvalue]
      rfl
    · intro i hi
      rw [List.mem_singleton.mp hi, contains_insert, decide_eq_true rfl, Bool.true_or]
    · intro i hi
      rw [List.mem_singleton.mp hi]
      exact ⟨c, hc, rfl, fun hkeep => if_pos hkeep⟩
    · intro x hx
      rw [contains_insert, hx, Bool.or_true]

theorem evaluates_evaluateAll (ids : List CallId) (parts : Pool) (p : Pass) :
    ∃ new, Evaluates e table new p (evaluateAll e table ids parts p).2 := by
  induction ids generalizing parts p with
  | nil => exact ⟨[], evaluates_of_keeps rfl fun x hx => hx⟩
  | cons id ids ih =>
    obtain ⟨new, hnew⟩ := evaluates_evaluate e table id p
    rw [evaluateAll]
    split
    · rename_i result q hq
      rw [hq] at hnew
      obtain ⟨more, hmore⟩ := ih (parts.insert id.memo result) q
      exact ⟨_, hnew.trans hmore⟩
    · rename_i q hq
      rw [hq] at hnew
      obtain ⟨more, hmore⟩ := ih parts q
      exact ⟨_, hnew.trans hmore⟩

theorem evaluates_emit (inner : Bool) (id : BlockId) (b : Block) (parts : Pool) (p : Pass) :
    ∃ new, Evaluates e table new p (emit e table inner id b parts p) := by
  obtain ⟨new, h⟩ := evaluates_evaluateAll e table b.calls parts p
  exact ⟨new, h.log, h.once, h.before, h.after, h.passes, h.keeps⟩

theorem evaluates_enter (id : BlockId) (p : Pass) : Evaluates e table [] p (p.enter id) := by
  rw [enter]
  split
  · exact evaluates_of_keeps rfl fun x hx => hx
  · exact evaluates_of_keeps rfl fun x hx => hx

mutual

theorem evaluates_block (inner silent : Bool) (o : Outline) (p : Pass) :
    ∃ new, Evaluates e table new p (block e table inner silent o p).2 := by
  cases o with
  | node id b children =>
    have henter := evaluates_enter e table id p
    have htake := evaluates_takeLocals e table b.vars (p.enter id)
    rw [block]
    generalize takeLocals b.vars (p.enter id) = taken at htake
    obtain ⟨own, p₁⟩ := taken
    obtain ⟨new, hnew⟩ := evaluates_blocks silent children false ∅ p₁
    dsimp only at htake ⊢
    generalize blocks e table silent children false ∅ p₁ = rest at hnew
    obtain ⟨full, parts, p₂⟩ := rest
    have hall := ((henter.trans htake).trans hnew).trans (evaluates_addGlobals e table b.vars p₂)
    dsimp only
    split
    · exact ⟨_, hall⟩
    · obtain ⟨more, hmore⟩ :=
        evaluates_emit e table inner id b parts (addGlobals b.vars p₂)
      exact ⟨_, hall.trans hmore⟩

theorem evaluates_blocks (silent : Bool) (os : List Outline) (full : Bool) (parts : Pool) (p : Pass) :
    ∃ new, Evaluates e table new p (blocks e table silent os full parts p).2.2 := by
  cases os with
  | nil => exact ⟨[], evaluates_of_keeps rfl fun x hx => hx⟩
  | cons c cs =>
    rw [blocks]
    dsimp only
    split
    · obtain ⟨new, h⟩ := evaluates_block true true c p
      obtain ⟨more, hmore⟩ := evaluates_blocks silent cs full
        (parts.insert (childName c.block.name) [])
        { (block e table true true c p).2 with
          state := (block e table true true c p).2.state.unmark c.id }
      exact ⟨_, h.trans ⟨hmore.log, hmore.once, hmore.before, hmore.after, hmore.passes, hmore.keeps⟩⟩
    · obtain ⟨new, h⟩ := evaluates_block true silent c p
      obtain ⟨more, hmore⟩ := evaluates_blocks silent cs _
        (parts.insert (childName c.block.name) _)
        { (block e table true silent c p).2 with
          state := (block e table true silent c p).2.state.clearOutput c.id }
      exact ⟨_, h.trans ⟨hmore.log, hmore.once, hmore.before, hmore.after, hmore.passes, hmore.keeps⟩⟩

end

end Pass

namespace Template

/--
A render passes each call on at most once, and a callback that keeps its arguments is passed those
that the call has in the table.
-/
theorem evaluates_renderAt (e : Engine) (t : Template) (id : BlockId) (log : CallLog) :
    ∃ new, (t.renderAt e id log).2.2 = log ++ new ∧ (new.map (·.id)).Nodup ∧
      ∀ i ∈ new, i.Passes e t.tree.calls := by
  rw [renderAt]
  split
  · exact ⟨[], (List.append_nil log).symm, List.nodup_nil, fun i hi => absurd hi List.not_mem_nil⟩
  · obtain ⟨new, h⟩ := Pass.evaluates_block e t.tree.calls false false _
      ⟨t.state, ∅, log⟩
    exact ⟨new, h.log, h.once, h.passes⟩

def measuring : Engine :=
  { Engine.standard with
    callbacks := Engine.builtins.insert "rawlen".toList
      (.keepingArgs (.unary fun t => Text.decimal t.length)) }

def measure (source : Text) : Option Text × CallLog :=
  match compile measuring source with
  | .error _ => (none, [])
  | .ok t =>
    let r := (t.setVariable "v".toList (.text "x".toList)).2.output measuring rootName []
    (r.1.toOption, r.2.2)

/-- A plain argument is passed as written, but for a filtered one its result placeholder is passed. -/
theorem filtered_argument_not_kept :
    (measure "func_rawlen(\x7bv\x7d)".toList).1 = some ['3'] ∧
    (measure "func_rawlen(\x7bv:h\x7d)".toList).1 = some "16".toList ∧
    ((measure "func_rawlen(\x7bv:h\x7d)".toList).2.filter (·.name = "rawlen".toList)).map (·.args) =
      [["\x7b__function_0__\x7d".toList]] := by decide +kernel

end Template

end BlockTemplate
