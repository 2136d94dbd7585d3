import BlockTemplate.Fragment.Compile
import BlockTemplate.Render.State

/-!
# Templates

A template is a tree of compiled blocks with the state of its rendering. This module has what can be
asked of a template and what changes its variables and marks.
-/

namespace BlockTemplate

structure Template where
  tree : Tree
  state : State
  current : BlockId
  nextInclusion : Nat
  deriving DecidableEq

inductive NameTree where
  | node (name : Text) (children : List NameTree)

namespace Outline

mutual

def nameTree : Outline → NameTree
  | .node _ b cs => .node b.name (nameTrees cs)

def nameTrees : List Outline → List NameTree
  | [] => []
  | o :: os => nameTree o :: nameTrees os

end

end Outline

namespace Template

def empty : Template := ⟨.empty, {}, rootId, 0⟩

instance : Inhabited Template := ⟨empty⟩

def renew (t : Template) : Template := { t with state := t.state.fresh, current := rootId }

def blockExists (t : Template) (name : Text) : Bool := t.tree.contains name

def inspect {α : Type} (t : Template) (name : Text) (f : BlockId → Block → α) : Except Fault α :=
  match t.tree.lookup name with
  | .error e => .error e
  | .ok id =>
    match t.tree.get? id with
    | some b => .ok (f id b)
    | none => .error (.blockNotFound name)

def nameOf (t : Template) (id : BlockId) : Option Text := (t.tree.get? id).map (·.name)

def blockList (t : Template) (name : Text) : Except Fault (List Text) :=
  t.inspect name fun _ b => b.children.filterMap t.nameOf

def blockTree (t : Template) (name : Text) : Except Fault NameTree :=
  t.inspect name fun id b =>
    ((t.tree.outline? id).map Outline.nameTree).getD (.node b.name [])

def placeholderList (t : Template) (name : Text) : Except Fault (List Text) :=
  t.inspect name fun _ b => b.vars

/-- The first block that lists a variable, among all blocks or in the one given. -/
def placeholderOwner (t : Template) (placeholder : Text) (block : Option Text) :
    Except Fault (Option Text) :=
  match block with
  | some name => t.inspect name fun _ b => if b.vars.contains placeholder then some b.name else none
  | none => .ok ((t.tree.owners placeholder).head?.bind t.nameOf)

def currentBlock (t : Template) : Text := (t.nameOf t.current).getD rootName

def onBlock (t : Template) (name : Text) (f : BlockId → Template) : Except Fault Unit × Template :=
  match t.tree.lookup name with
  | .ok id => (.ok (), f id)
  | .error e => (.error e, t)

def setCurrentBlock (t : Template) (name : Text) : Except Fault Unit × Template :=
  t.onBlock name fun id => { t with current := id }

/-- Puts a block out on the next render of its parent even if it is empty. -/
def touchBlock (t : Template) (name : Text) : Except Fault Unit × Template :=
  t.onBlock name fun id => { t with state := t.state.mark id .touched }

/-- Leaves a block out of the next render of its parent; its variables are used up all the same. -/
def hideBlock (t : Template) (name : Text) : Except Fault Unit × Template :=
  t.onBlock name fun id => { t with state := t.state.mark id .hidden }

def setLocals (t : Template) (name : Option Text) (v : Value) : Except Fault Unit × Template :=
  let (r, pool) := v.flatten name t.state.locals
  (r.mapError Fault.value, { t with state := { t.state with locals := pool } })

def setGlobals (t : Template) (name : Option Text) (v : Value) : Except Fault Unit × Template :=
  let (r, pool) := v.flatten name t.state.globals
  (r.mapError Fault.value, { t with state := { t.state with globals := pool } })

def setVariable (t : Template) (name : Text) (v : Value) : Except Fault Unit × Template :=
  t.setLocals (some name) v

def setVariables (t : Template) (v : Value) : Except Fault Unit × Template := t.setLocals none v

def setGlobalVariable (t : Template) (name : Text) (v : Value) : Except Fault Unit × Template :=
  t.setGlobals (some name) v

def setGlobalVariables (t : Template) (v : Value) : Except Fault Unit × Template :=
  t.setGlobals none v

def clearVariables (t : Template) : Template := { t with state := { t.state with locals := ∅ } }

end Template

end BlockTemplate
