import BlockTemplate.Placeholder
import BlockTemplate.Tree.Basic

/-!
# What a block refers to

Scanning the content of a block lists its variables and calls. Every call and every placeholder with
a filter gives way to the placeholder of its result.
-/

namespace BlockTemplate

/-- The calls of the template and what a block refers to, as far as it was scanned. -/
structure Listing where
  table : CallTable
  vars : List Text := []
  calls : List CallId := []
  deriving Repr, DecidableEq

namespace Listing

def addVariable (l : Listing) (name : Text) : Listing :=
  { l with vars := addNew l.vars name }

def addCall (l : Listing) (c : Call) : CallId × Listing :=
  let (id, table) := l.table.intern c
  (id, { l with table := table, calls := addNew l.calls id })

/-- Whether a name stands for a child of the block or for the result of a call. -/
def reserved (children : List Text) (name : Text) : Bool :=
  children.any (fun c => childName c == name) || CallId.isMemo name

def filterCall (d : Dialect) (name filter : Text) : Call := ⟨filter, [d.token name]⟩

def takePlaceholders (d : Dialect) (children : List Text) :
    List (Piece Placeholder) → Listing → Text × Listing
  | [], l => ([], l)
  | .char c :: rest, l =>
    let (text, l) := takePlaceholders d children rest l
    (c :: text, l)
  | .mark raw p :: rest, l =>
    let l := if reserved children p.name then l else l.addVariable p.name
    match p.filter with
    | none =>
      let (text, l) := takePlaceholders d children rest l
      (raw ++ text, l)
    | some f =>
      let (id, l) := l.addCall (filterCall d p.name f)
      let (text, l) := takePlaceholders d children rest l
      (d.token id.memo ++ text, l)

abbrev Scanned := Except (CallFault × (Nat × Nat)) Text

/-- Adds what came before: as it was written, or the bytes it had where a fault follows. -/
def Scanned.after (written raw : Text) : Scanned → Scanned
  | .ok text => .ok (written ++ text)
  | .error (why, m, n) => .error (why, raw.size + m, raw.size + n)

def takeCalls (d : Dialect) :
    List (Piece (Except Arguments.Failure Call)) → Listing → Scanned × Listing
  | [], l => (.ok [], l)
  | .char c :: rest, l =>
    let (r, l) := takeCalls d rest l
    (Scanned.after [c] [c] r, l)
  | .mark raw (.ok c) :: rest, l =>
    let (id, l) := l.addCall c
    let (r, l) := takeCalls d rest l
    (Scanned.after (d.token id.memo) raw r, l)
  | .mark raw (.error e) :: _, l =>
    (.error (e.fault, 0, raw.size), l)

/--
Scans a block with children of the given names. Placeholders come first, so the place of a faulty
call is one in the content with its filters already taken out. Calls found before a fault keep
their numbers.
-/
def scan (d : Dialect) (children : List Text) (table : CallTable) (b : Block) :
    Except Fault Block × CallTable :=
  let (content, l) := takePlaceholders d children (d.placeholders b.content) { table := table }
  let (r, l) := takeCalls d (Text.pieces d.callMark Call.read content) l
  match r with
  | .ok content =>
    (.ok { b with content := content, vars := l.vars, calls := l.calls }, l.table)
  | .error (why, span) => (.error (.callSyntax why ⟨content, span⟩), l.table)

end Listing

end BlockTemplate
