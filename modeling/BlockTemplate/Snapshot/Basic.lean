import BlockTemplate.Dict
import BlockTemplate.Fragment.Compile
import BlockTemplate.Tag.Inclusion

/-!
# Snapshots

A snapshot is a compiled file on its own: everything is found by name, the top block under the name
of the root. Taking one from a tree and restoring it into another gives the calls and inclusions
the numbers of the other tree.
-/

namespace BlockTemplate

structure Snapshot where
  blocks : Dict Text Text
  vars : Dict Text (List Text)
  children : Dict Text (List Text)
  /-- the calls of each block by the name of the placeholder for the result -/
  functions : Dict Text (Dict Text Call)
  inclusions : List Inclusion
  deriving DecidableEq

namespace Snapshot

def trimLines (t : Text) : Text :=
  Text.join ['\n'] (((Text.lines t).map (Text.trim Text.isBlank)).filter (· ≠ []))

def addBlock (t : Tree) (trim : Bool) (rename : Text → Text) (s : Snapshot) (b : Block) :
    Snapshot :=
  let name := rename b.name
  { s with
    blocks := s.blocks.insert name (if trim then trimLines b.content else b.content)
    vars := s.vars.insert name b.vars
    children := s.children.insert name
      (b.children.filterMap fun c => (t.get? c).map fun b => rename b.name)
    functions := s.functions.insert name
      (Dict.ofList (b.calls.filterMap fun id => (t.calls.get? id).map fun c => (id.memo, c))) }

def take (t : Tree) (top : BlockId) (inclusions : List Inclusion) (trim : Bool) : Snapshot :=
  let blocks := t.preorder top
  let topName := (blocks.head?.map (·.2.name)).getD rootName
  let rename := fun name => if name = topName then rootName else name
  blocks.foldl (fun s e => s.addBlock t trim rename e.2) ⟨∅, ∅, ∅, ∅, inclusions⟩

/-- New names for placeholders that were numbered in another tree. -/
abbrev Renaming := Dict Text Text

def renumber : (next : Nat) → List Inclusion → Renaming → List Inclusion × Renaming
  | _, [], names => ([], names)
  | next, i :: rest, names =>
    let (inclusions, names) :=
      renumber (next + 1) rest (names.insert i.name (Inclusion.numbered next))
    (⟨Inclusion.numbered next, i.path⟩ :: inclusions, names)

def internAll : List (Text × Call) → CallTable → List CallId → Renaming →
    List CallId × CallTable × Renaming
  | [], table, ids, names => (ids, table, names)
  | (old, c) :: rest, table, ids, names =>
    let (id, table) := table.intern c
    internAll rest table (addNew ids id) (names.insert old id.memo)

def allNew : List Text → (seen : List Text) → Bool
  | [], _ => true
  | name :: rest, seen => name ∉ seen && allNew rest (name :: seen)

structure Restored where
  blocks : List Block
  table : CallTable
  names : Renaming

/--
Restores the blocks whose names wait, each before the children it adds to them. Fails with the
calls interned so far if a block is missing or comes twice. Since no name comes twice, there are no
more steps than blocks.
-/
def restoreBlocks (s : Snapshot) : (steps : Nat) → (waiting seen : List Text) → Restored →
    Option Restored × CallTable
  | _, [], _, r => (some r, r.table)
  | 0, _ :: _, _, r => (none, r.table)
  | steps + 1, name :: waiting, seen, r =>
    match s.blocks.get? name, s.children.get? name with
    | some content, some children =>
      if allNew children seen then
        let first := r.blocks.length + 1 + waiting.length
        let calls := ((s.functions.get? name).getD ∅).entries
        let (ids, table, names) := internAll calls r.table [] r.names
        let vars := ((s.vars.get? name).getD []).map fun v => (names.get? v).getD v
        let b : Block :=
          { name := name
            content := content
            vars := vars.foldl addNew []
            calls := ids
            children := List.range' first children.length }
        restoreBlocks s steps (waiting ++ children) (children ++ seen)
          ⟨r.blocks ++ [b], table, names⟩
      else (none, r.table)
    | _, _ => (none, r.table)

def renameTokens (d : Dialect) (names : Renaming) (b : Block) : Block :=
  { b with content := d.splice (fun name => (names.get? name).map d.token) b.content }

def nameTop (top : Text) : Fragment → Fragment
  | [] => []
  | b :: rest => { b with name := top } :: rest

/--
The fragment of a snapshot under the name `top`, with its inclusions numbered from `next` on.
Nothing comes of a snapshot that is not one tree, but calls may have been interned.
-/
def restore (d : Dialect) (top : Text) (table : CallTable) (next : Nat) (s : Snapshot) :
    Option (Fragment × List Inclusion) × CallTable :=
  let (inclusions, names) := renumber next s.inclusions ∅
  let steps := s.blocks.entries.length + 1
  let (r, table) := restoreBlocks s steps [rootName] [rootName] ⟨[], table, names⟩
  (r.map fun r =>
    (nameTop top (Fragment.withParents (r.blocks.map (renameTokens d r.names))), inclusions), table)

end Snapshot

end BlockTemplate
