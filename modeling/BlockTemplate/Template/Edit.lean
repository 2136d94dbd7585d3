import BlockTemplate.Engine
import BlockTemplate.Template.Basic

/-!
# Editing templates

Source is set as the whole template, added as a block in place of a placeholder, or put in place of
a block. Compiled blocks are attached only when all of the source has been compiled.
-/

namespace BlockTemplate

inductive Target where
  /-- into a new block in place of a placeholder of the block `parent` -/
  | under (parent : BlockId) (placeholder : Text)
  /-- over a block, whose output may be kept -/
  | over (id : BlockId) (keepOutput : Bool)
  deriving Repr, DecidableEq

namespace Target

def replaced : Target → Option BlockId
  | .under _ _ => none
  | .over id _ => some id

end Target

namespace Block

def adopt (d : Dialect) (placeholder childBlock : Text) (child : BlockId) (b : Block) : Block :=
  { b with
    content := d.splice
      (fun name => if name = placeholder then some (d.token (childName childBlock)) else none)
      b.content
    children := b.children ++ [child]
    vars := b.vars.filter (· ≠ placeholder) }

end Block

namespace Template

def topName (f : Fragment) : Text := (f.head?.map (·.name)).getD []

def attach (d : Dialect) (t : Template) (f : Fragment) : Target → BlockId × Template
  | .under parent placeholder =>
    let (id, tree) := t.tree.graftUnder parent f
    (id, { t with tree := tree.modify parent (Block.adopt d placeholder (topName f) id) })
  | .over id keepOutput =>
    let removed := t.tree.descendants id
    let state := removed.foldl State.forget t.state
    let state := if keepOutput then state else state.clearOutput id
    (id,
      { t with
        tree := ((t.tree.prune id).graftOver id f).releaseCalls
        state := state.unmark id
        current := if t.current ∈ removed then rootId else t.current })

def withCalls (t : Template) (calls : CallTable) : Template :=
  { t with tree := { t.tree with calls := calls } }

def attachSource (e : Engine) (t : Template) (top source : Text) (target : Target) :
    Except Fault Unit × Template :=
  match Fragment.compile e.dialect t.tree top source target.replaced with
  | (.error fault, calls) => (.error fault, t.withCalls calls)
  | (.ok f, calls) => (.ok (), ((t.withCalls calls).attach e.dialect f target).2)

/-- Makes the source the whole template. Global variables stay, and a fault changes nothing. -/
def setTemplate (e : Engine) (t : Template) (source : Text) : Except Fault Unit × Template :=
  match Fragment.compile e.dialect .empty rootName source (some rootId) with
  | (.error fault, _) => (.error fault, t)
  | (.ok f, calls) =>
    (.ok (),
      { tree := ({ Tree.empty with calls := calls } : Tree).graftOver rootId f
        state := t.state.fresh
        current := rootId
        nextInclusion := 0 })

def compile (e : Engine) (source : Text) : Except Fault Template :=
  match empty.setTemplate e source with
  | (.ok (), t) => .ok t
  | (.error fault, _) => .error fault

/-- The one block that lists a placeholder where a new block of a name can go. -/
def placeFor (t : Template) (placeholder block : Text) : Except Fault BlockId :=
  if t.tree.contains block then .error (.blockExists block) else t.tree.owner placeholder

def addBlock (e : Engine) (t : Template) (placeholder block source : Text) :
    Except Fault Unit × Template :=
  match t.placeFor placeholder block with
  | .error fault => (.error fault, t)
  | .ok parent => t.attachSource e block source (.under parent placeholder)

def replaceBlock (e : Engine) (t : Template) (block source : Text) (keepOutput : Bool) :
    Except Fault Unit × Template :=
  match t.tree.lookup block with
  | .error fault => (.error fault, t)
  | .ok id => t.attachSource e block source (.over id keepOutput)

end Template

end BlockTemplate
