import BlockTemplate.Dialect
import BlockTemplate.Tree.Basic

/-!
# Edits of a tree

A compiled fragment is a list of blocks that refer to each other by their place in the list, the
top one first. Grafting gives them slots, empty ones before new ones, so a tree never has more
slots than it once had blocks at the same time.
-/

namespace BlockTemplate

/-- Blocks that refer to each other by their place in the list; the first is above all others. -/
abbrev Fragment := List Block

namespace Tree

def vacant (t : Tree) : List BlockId :=
  (List.range t.slots.length).filter fun id => (t.get? id).isNone

def allocate (t : Tree) (count : Nat) : List BlockId :=
  (t.vacant ++ List.range' t.slots.length count).take count

def put (t : Tree) (id : BlockId) (b : Block) : Tree :=
  if id < t.slots.length then { t with slots := t.slots.set id (some b) }
  else { t with slots := t.slots ++ [some b] }

def relocate (place : Nat → BlockId) (above : Option BlockId) (b : Block) : Block :=
  { b with
    children := b.children.map place
    parent := match b.parent with
      | some p => some (place p)
      | none => above }

def graftAt (t : Tree) (ids : List BlockId) (above : Option BlockId) (f : Fragment) : Tree :=
  let place := fun i => ids.getD i rootId
  (ids.zip (f.map (relocate place above))).foldl (fun t e => t.put e.1 e.2) t

def graftUnder (t : Tree) (parent : BlockId) (f : Fragment) : BlockId × Tree :=
  let ids := t.allocate f.length
  (ids.headD rootId, t.graftAt ids (some parent) f)

/-- Puts a fragment in place of a block, whose slot and parent go to the top block. -/
def graftOver (t : Tree) (id : BlockId) (f : Fragment) : Tree :=
  t.graftAt (id :: t.allocate (f.length - 1)) ((t.get? id).bind (·.parent)) f

def clear (t : Tree) (ids : List BlockId) : Tree :=
  { t with slots := t.slots.mapIdx fun id b => if ids.contains id then none else b }

def prune (t : Tree) (id : BlockId) : Tree :=
  (t.clear (t.descendants id)).modify id fun b => { b with children := [] }

def usedCalls (t : Tree) : List CallId := t.slots.flatMap fun b => (b.map (·.calls)).getD []

def releaseCalls (t : Tree) : Tree := { t with calls := t.calls.keepOnly t.usedCalls }

def absorb (token : Text) (id : BlockId) (b parent : Block) : Block :=
  { parent with
    content := Text.replaceAll token b.content parent.content
    children := parent.children.flatMap fun c => if c = id then b.children else [c]
    vars := b.vars.foldl addNew parent.vars
    calls := b.calls.foldl addNew parent.calls }

def dissolve (t : Tree) (id : BlockId) (token : Text) : Tree :=
  match t.get? id with
  | none => t
  | some b =>
    let t := t.clear [id]
    match b.parent with
    | none => t
    | some p =>
      let t := b.children.foldl (fun t c => t.modify c fun b => { b with parent := some p }) t
      t.modify p (absorb token id b)

end Tree

end BlockTemplate
