import BlockTemplate.Engine
import BlockTemplate.Placeholder
import BlockTemplate.Render.State

/-!
# Rendering blocks

One render walks a block and its descendants. A block first uses up its local variables, then its
children are rendered and their output is taken, then it looks up its global variables. All values
met on the way go into one pool, which is substituted at the end, in the block that the render
started from. The result of a call goes into the pool too, so that a call is evaluated once.

Below a hidden block nothing is put out, but variables are used up and output is taken all the same.
-/

namespace BlockTemplate

structure Pass where
  state : State
  /-- values of variables and results of calls, by the names of their placeholders -/
  values : Pool
  log : CallLog

namespace Pass

/-- Writes values into a text, each kept from being read as placeholders if data is preserved. -/
def substitute (e : Engine) (values : Pool) (t : Text) : Text :=
  e.dialect.splice
    (fun name => (values.get? name).map fun v =>
      if e.options.preserveData then e.dialect.protect v else v) t

def enter (id : BlockId) (p : Pass) : Pass :=
  if id = rootId then { p with state := { p.state with rootRendered := true } } else p

def takeLocals : List Text → Pass → Bool × Pass
  | [], p => (false, p)
  | name :: names, p =>
    match p.state.locals.get? name with
    | none => takeLocals names p
    | some v =>
      (true, (takeLocals names
        { p with
          state := { p.state with locals := p.state.locals.erase name }
          values := p.values.insert name v }).2)

def addGlobals : List Text → Pass → Pass
  | [], p => p
  | name :: names, p =>
    match p.state.globals.get? name with
    | none => addGlobals names p
    | some v => addGlobals names { p with values := p.values.insert name v }

def arguments (e : Engine) (values : Pool) (c : Call) : List Text :=
  if (e.callbacks.get? c.name).any (·.keepsArgs) then c.args
  else c.args.map (substitute e values)

def apply (e : Engine) (log : CallLog) (name : Text) (args : List Text) : Text :=
  match e.callbacks.get? name with
  | some callback => callback.run (log.of name) args
  | none => Callback.arg args 0

/-- Evaluates a call, unless its result is among the values, and keeps the result there. -/
def evaluate (e : Engine) (table : CallTable) (id : CallId) (p : Pass) : Option Text × Pass :=
  match p.values.get? id.memo, table.get? id with
  | some result, _ => (some result, p)
  | none, none => (none, p)
  | none, some c =>
    let args := arguments e p.values c
    let result := apply e p.log c.name args
    (some result,
      { p with values := p.values.insert id.memo result, log := p.log ++ [⟨id, c.name, args⟩] })

def evaluateAll (e : Engine) (table : CallTable) : List CallId → Pool → Pass → Pool × Pass
  | [], parts, p => (parts, p)
  | id :: ids, parts, p =>
    match evaluate e table id p with
    | (some result, p) => evaluateAll e table ids (parts.insert id.memo result) p
    | (none, p) => evaluateAll e table ids parts p

def emits (e : Engine) (s : State) (id : BlockId) (isEmpty : Bool) : Bool :=
  !isEmpty || id == rootId || !e.options.removeEmpty || s.isTouched id

/-- Puts a block out: its content with the parts spliced in, and the values if it is outermost. -/
def emit (e : Engine) (table : CallTable) (inner : Bool) (id : BlockId) (b : Block) (parts : Pool)
    (p : Pass) : Pass :=
  let (parts, p) := evaluateAll e table b.calls parts p
  let content := e.dialect.splice parts.get? b.content
  let content := if inner then content else substitute e p.values content
  let s := p.state.append id content
  { p with state := if s.isTouched id then s.unmark id else s }

mutual

/--
Renders an outline and tells whether its block was empty: no local variable went into it and no
child had output. An `inner` block leaves its values to be written later, and a `silent` one puts
nothing out.
-/
def block (e : Engine) (table : CallTable) (inner silent : Bool) : Outline → Pass → Bool × Pass
  | .node id b children, p =>
    let (own, p) := takeLocals b.vars (p.enter id)
    let (full, parts, p) := blocks e table silent children false ∅ p
    let p := addGlobals b.vars p
    let isEmpty := !(own || full)
    if silent || !emits e p.state id isEmpty then (isEmpty, p)
    else (isEmpty, emit e table inner id b parts p)

def blocks (e : Engine) (table : CallTable) (silent : Bool) :
    List Outline → (full : Bool) → (parts : Pool) → Pass → Bool × Pool × Pass
  | [], full, parts, p => (full, parts, p)
  | c :: cs, full, parts, p =>
    let name := childName c.block.name
    if p.state.isHidden c.id then
      let p := (block e table true true c p).2
      blocks e table silent cs full (parts.insert name [])
        { p with state := p.state.unmark c.id }
    else
      let p := (block e table true silent c p).2
      let output := p.state.output c.id
      blocks e table silent cs (full || output ≠ []) (parts.insert name output)
        { p with state := p.state.clearOutput c.id }

end

def run (e : Engine) (table : CallTable) (o : Outline) (s : State) (log : CallLog) : Bool × Pass :=
  block e table false false o ⟨s, ∅, log⟩

end Pass

end BlockTemplate
