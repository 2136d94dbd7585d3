import BlockTemplate.Call.Interner
import BlockTemplate.Tree.Edit

/-!
# The arena of a tree

The blocks of a tree as they are stored: in slots, with an index that leads from names to slots and a
stack of the slots that are empty. The interned calls lie beside them. Every operation brings the
slots, the index and the stack up to date on its own, so that they agree is something to be proved.
-/

namespace BlockTemplate

structure Arena where
  slots : List (Option Block)
  names : Dict Text BlockId
  /-- the empty slots, the next one to be taken first -/
  free : List BlockId
  calls : Interner
  deriving DecidableEq

namespace Arena

def start : Arena :=
  ⟨[some { name := rootName, content := [] }], Dict.empty.insert rootName rootId, [], {}⟩

instance : Inhabited Arena := ⟨start⟩

def blocks (a : Arena) : Tree := ⟨a.slots, .empty⟩

def get? (a : Arena) (id : BlockId) : Option Block := a.blocks.get? id

def modify (a : Arena) (id : BlockId) (f : Block → Block) : Arena :=
  { a with slots := (a.blocks.modify id f).slots }

def alloc (a : Arena) : BlockId × Arena :=
  match a.free with
  | id :: free => (id, { a with free := free })
  | [] => (a.slots.length, { a with slots := a.slots ++ [none] })

def allocAll : (count : Nat) → Arena → List BlockId × Arena
  | 0, a => ([], a)
  | count + 1, a =>
    let (id, a) := a.alloc
    let (ids, a) := allocAll count a
    (id :: ids, a)

/-- Slots for the blocks of a fragment. The top block takes over the given slot, if there is one. -/
def slotsFor (a : Arena) (count : Nat) : Option BlockId → List BlockId × Arena
  | none => allocAll count a
  | some slot =>
    let (ids, a) := allocAll (count - 1) a
    (slot :: ids, a)

def put (a : Arena) (id : BlockId) (b : Block) : Arena :=
  { a with slots := a.slots.set id (some b), names := a.names.insert b.name id }

def graft (a : Arena) (f : Fragment) (slot : Option BlockId) : BlockId × Arena :=
  let (ids, a) := a.slotsFor f.length slot
  let above := slot.bind fun id => (a.get? id).bind (·.parent)
  let place := fun i => ids.getD i rootId
  (ids.headD rootId,
    (ids.zip (f.map (Tree.relocate place above))).foldl (fun a e => a.put e.1 e.2) a)

def remove (a : Arena) (id : BlockId) : Arena :=
  match a.get? id with
  | none => a
  | some b =>
    { a with slots := a.slots.set id none, names := a.names.erase b.name, free := id :: a.free }

def removeDescendants (a : Arena) (id : BlockId) : Arena :=
  ((a.blocks.descendants id).foldl remove a).modify id fun b => { b with children := [] }

def spliceAt (c : BlockId) (inner : List BlockId) : List BlockId → List BlockId
  | [] => []
  | x :: rest => if x = c then inner ++ rest else x :: spliceAt c inner rest

def inline (a : Arena) (id : BlockId) (token : Text) : Arena :=
  match a.get? id with
  | none => a
  | some b =>
    let a := a.remove id
    match b.parent with
    | none => a
    | some p =>
      let a := b.children.foldl (fun a c => a.modify c fun b => { b with parent := some p }) a
      a.modify p fun parent => { Tree.absorb token id b parent with
        children := spliceAt id b.children parent.children }

def usedCalls (a : Arena) : List CallId := a.blocks.usedCalls

def intern (a : Arena) (c : Call) : CallId × Arena :=
  let (id, calls) := a.calls.intern c
  (id, { a with calls := calls })

def internAll (cs : List Call) (a : Arena) : Arena := cs.foldl (fun a c => (a.intern c).2) a

def releaseCalls (a : Arena) : Arena := { a with calls := a.calls.release a.usedCalls }

end Arena

end BlockTemplate
