import BlockTemplate.Fragment.Extract
import BlockTemplate.Fragment.Listing
import BlockTemplate.Tag.Comment

/-!
# Compiling source

Source is compiled in three steps: comments are dropped, blocks are taken out, and each block is
scanned for variables and calls. The result is a fragment that can be grafted into the tree it was
compiled for.
-/

namespace BlockTemplate.Fragment

/-- Refuses a name that comes twice, or that a block of the tree has which stays. -/
def checkNames (t : Tree) (leaving : List Text) : (seen : List Text) → Fragment → Except Fault Unit
  | _, [] => .ok ()
  | seen, b :: rest =>
    if b.name ∈ seen ∨ (t.contains b.name = true ∧ b.name ∉ leaving) then
      .error (.duplicateBlock b.name)
    else checkNames t leaving (b.name :: seen) rest

/-- The names that a fragment may use again when it takes the place of a block. -/
def leavingNames (t : Tree) (replaced : Option BlockId) : List Text :=
  (replaced.map t.namesUnder).getD []

def childNames (f : Fragment) (b : Block) : List Text :=
  b.children.filterMap fun i => f[i]?.map (·.name)

def scanAll (d : Dialect) (whole : Fragment) :
    List Block → CallTable → Except Fault Fragment × CallTable
  | [], table => (.ok [], table)
  | b :: rest, table =>
    match Listing.scan d (whole.childNames b) table b with
    | (.error e, table) => (.error e, table)
    | (.ok b, table) =>
      let (r, table) := scanAll d whole rest table
      (r.map (b :: ·), table)

/--
Compiles source into a fragment whose top block has the name `top`. If it is to take the place of a
block, the names under that block may be used again. The table keeps the calls found before a fault.
-/
def compile (d : Dialect) (t : Tree) (top source : Text) (replaced : Option BlockId) :
    Except Fault Fragment × CallTable :=
  match extract d top (Tag.stripComments source) with
  | .error e => (.error e, t.calls)
  | .ok f =>
    match checkNames t (leavingNames t replaced) [] f with
    | .error e => (.error e, t.calls)
    | .ok () => scanAll d f f t.calls

end BlockTemplate.Fragment
