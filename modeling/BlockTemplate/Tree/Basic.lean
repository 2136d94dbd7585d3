import BlockTemplate.Fault

/-!
# Trees of blocks

The blocks of a template lie in numbered slots and refer to each other by number. Slot zero holds
the root. The name of a block is unique in its tree, so blocks are found by name; a slot whose block
was removed is empty until a new block takes it.

`Tree.outline?` is the nested view of a block and its descendants. Whatever walks the tree walks an
outline, by recursion on the data.
-/

namespace BlockTemplate

abbrev BlockId := Nat

def rootId : BlockId := 0

def rootName : Text := "__global__".toList

/--
A block: its content, in which placeholders stand for its children and for the results of its
calls, and what it refers to, each in the order of first appearance.
-/
structure Block where
  name : Text
  content : Text
  vars : List Text := []
  calls : List CallId := []
  children : List BlockId := []
  parent : Option BlockId := none
  deriving Repr, DecidableEq, Inhabited

def childName (block : Text) : Text := "__".toList ++ block ++ "__".toList

def addNew {α : Type} [DecidableEq α] (xs : List α) (x : α) : List α :=
  if x ∈ xs then xs else xs ++ [x]

/-- The blocks of a template by slot, and the calls they make. -/
structure Tree where
  slots : List (Option Block)
  calls : CallTable
  deriving Repr, DecidableEq

inductive Outline where
  | node (id : BlockId) (block : Block) (children : List Outline)

namespace Outline

def id : Outline → BlockId
  | .node id _ _ => id

def block : Outline → Block
  | .node _ b _ => b

def children : Outline → List Outline
  | .node _ _ cs => cs

mutual

def preorder : Outline → List (BlockId × Block)
  | .node id b cs => (id, b) :: preorderAll cs

def preorderAll : List Outline → List (BlockId × Block)
  | [] => []
  | o :: os => preorder o ++ preorderAll os

end

end Outline

namespace Tree

def empty : Tree := ⟨[some { name := rootName, content := [] }], .empty⟩

instance : Inhabited Tree := ⟨empty⟩

def get? (t : Tree) (id : BlockId) : Option Block := t.slots[id]?.join

def find? (t : Tree) (name : Text) : Option BlockId :=
  t.slots.findIdx? (fun b => b.any (·.name = name))

def contains (t : Tree) (name : Text) : Bool := (t.find? name).isSome

def lookup (t : Tree) (name : Text) : Except Fault BlockId :=
  match t.find? name with
  | some id => .ok id
  | none => .error (.blockNotFound name)

def modify (t : Tree) (id : BlockId) (f : Block → Block) : Tree :=
  { t with slots := t.slots.modify id (Option.map f) }

def outlineTo (t : Tree) : (depth : Nat) → BlockId → Option Outline
  | 0, _ => none
  | depth + 1, id =>
    (t.get? id).map fun b => .node id b (b.children.filterMap (t.outlineTo depth))

/-- The outline of a block. No tree is deeper than it has slots. -/
def outline? (t : Tree) (id : BlockId) : Option Outline := t.outlineTo t.slots.length id

def preorder (t : Tree) (id : BlockId) : List (BlockId × Block) :=
  ((t.outline? id).map Outline.preorder).getD []

def descendants (t : Tree) (id : BlockId) : List BlockId := (t.preorder id).tail.map (·.1)

def namesUnder (t : Tree) (id : BlockId) : List Text := (t.preorder id).map (·.2.name)

def owners (t : Tree) (name : Text) : List BlockId :=
  ((t.preorder rootId).filter (fun e => e.2.vars.contains name)).map (·.1)

def owner (t : Tree) (name : Text) : Except Fault BlockId :=
  match t.owners name with
  | [] => .error (.placeholderNotFound name)
  | [id] => .ok id
  | _ => .error (.placeholderShared name)

end Tree

end BlockTemplate
