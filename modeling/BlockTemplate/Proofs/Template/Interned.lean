import BlockTemplate.Proofs.Call.Table
import BlockTemplate.Template.Load

/-!
# The calls that are interned

Compiling, restoring and preparing a file each intern calls one after another, also where they fail on
the way. Here these calls are listed, and the table that is left is the old one with them interned.
-/

namespace BlockTemplate

open CallTable (internList internList_append)

namespace Listing

def filterCalls (d : Dialect) : List (Piece Placeholder) → List Call
  | [] => []
  | .char _ :: rest => filterCalls d rest
  | .mark _ p :: rest => (p.filter.map (filterCall d p.name)).toList ++ filterCalls d rest

def callsRead : List (Piece (Except Arguments.Failure Call)) → List Call
  | [] => []
  | .char _ :: rest => callsRead rest
  | .mark _ (.ok c) :: rest => c :: callsRead rest
  | .mark _ (.error _) :: _ => []

def callsOf (d : Dialect) (children : List Text) (table : CallTable) (b : Block) : List Call :=
  let content := (takePlaceholders d children (d.placeholders b.content) { table := table }).1
  filterCalls d (d.placeholders b.content) ++ callsRead (Text.pieces d.callMark Call.read content)

theorem table_takePlaceholders (d : Dialect) (children : List Text) (ps : List (Piece Placeholder))
    (l : Listing) :
    (takePlaceholders d children ps l).2.table = internList (filterCalls d ps) l.table := by
  induction ps generalizing l with
  | nil => rfl
  | cons p ps ih =>
    cases p with
    | char c => exact ih l
    | mark raw p =>
      have htable : (if reserved children p.name then l else l.addVariable p.name).table = l.table := by
        split <;> rfl
      rw [takePlaceholders, filterCalls]
      cases p.filter with
      | none => exact (ih _).trans (congrArg _ htable)
      | some f =>
        refine (ih _).trans ?_
        rw [addCall, htable]
        rfl

theorem table_takeCalls (d : Dialect) (ps : List (Piece (Except Arguments.Failure Call)))
    (l : Listing) : (takeCalls d ps l).2.table = internList (callsRead ps) l.table := by
  induction ps generalizing l with
  | nil => rfl
  | cons p ps ih =>
    match p with
    | .char c => exact ih l
    | .mark raw (.ok c) => exact ih _
    | .mark raw (.error e) => rfl

theorem table_scan (d : Dialect) (children : List Text) (table : CallTable) (b : Block) :
    (scan d children table b).2 = internList (callsOf d children table b) table := by
  have hfirst := table_takePlaceholders d children (d.placeholders b.content) { table := table }
  rw [scan, callsOf, internList_append, ← hfirst, ← table_takeCalls d]
  dsimp only
  split <;> rfl

end Listing

namespace Fragment

def callsOfAll (d : Dialect) (whole : Fragment) : List Block → CallTable → List Call
  | [], _ => []
  | b :: rest, table =>
    Listing.callsOf d (whole.childNames b) table b ++
      match Listing.scan d (whole.childNames b) table b with
      | (.error _, _) => []
      | (.ok _, table) => callsOfAll d whole rest table

def callsOf (d : Dialect) (t : Tree) (top source : Text) (replaced : Option BlockId) : List Call :=
  match extract d top (Tag.stripComments source) with
  | .error _ => []
  | .ok f =>
    match checkNames t (leavingNames t replaced) [] f with
    | .error _ => []
    | .ok () => callsOfAll d f f t.calls

theorem table_scanAll (d : Dialect) (whole : Fragment) (bs : List Block) (table : CallTable) :
    (scanAll d whole bs table).2 = internList (callsOfAll d whole bs table) table := by
  induction bs generalizing table with
  | nil => rfl
  | cons b bs ih =>
    have hscan := Listing.table_scan d (whole.childNames b) table b
    rw [scanAll, callsOfAll, internList_append, ← hscan]
    generalize Listing.scan d (whole.childNames b) table b = r
    obtain ⟨r, u⟩ := r
    cases r with
    | error fault => rfl
    | ok c => exact ih u

theorem table_compile (d : Dialect) (t : Tree) (top source : Text) (replaced : Option BlockId) :
    (compile d t top source replaced).2 = internList (callsOf d t top source replaced) t.calls := by
  rw [compile, callsOf]
  cases extract d top (Tag.stripComments source) with
  | error fault => rfl
  | ok f =>
    dsimp only
    cases checkNames t (leavingNames t replaced) [] f with
    | error fault => rfl
    | ok u => exact table_scanAll d f f t.calls

end Fragment

namespace Snapshot

def callsOf (s : Snapshot) : (steps : Nat) → (waiting seen : List Text) → List Call
  | _, [], _ => []
  | 0, _ :: _, _ => []
  | steps + 1, name :: waiting, seen =>
    match s.blocks.get? name, s.children.get? name with
    | some _, some children =>
      if allNew children seen then
        ((s.functions.get? name).getD ∅).entries.map (·.2) ++
          callsOf s steps (waiting ++ children) (children ++ seen)
      else []
    | _, _ => []

theorem table_internAll (cs : List (Text × Call)) (table : CallTable) (ids : List CallId)
    (names : Renaming) :
    (internAll cs table ids names).2.1 = internList (cs.map (·.2)) table := by
  induction cs generalizing table ids names with
  | nil => rfl
  | cons c cs ih => exact ih _ _ _

theorem table_restoreBlocks (s : Snapshot) (steps : Nat) (waiting seen : List Text) (r : Restored) :
    (restoreBlocks s steps waiting seen r).2 = internList (s.callsOf steps waiting seen) r.table := by
  induction steps generalizing waiting seen r with
  | zero => cases waiting <;> rfl
  | succ steps ih =>
    cases waiting with
    | nil => rfl
    | cons name waiting =>
      rw [restoreBlocks, callsOf]
      cases s.blocks.get? name with
      | none => rfl
      | some content =>
        cases s.children.get? name with
        | none => rfl
        | some children =>
          dsimp only
          split
          · rw [internList_append, ← table_internAll _ r.table [] r.names]
            exact ih _ _ _
          · rfl

theorem table_restore (d : Dialect) (top : Text) (table : CallTable) (next : Nat) (s : Snapshot) :
    (s.restore d top table next).2 =
      internList (s.callsOf (s.blocks.entries.length + 1) [rootName] [rootName]) table := by
  rw [restore]
  exact table_restoreBlocks s _ _ _ _

end Snapshot

namespace Template

variable {e : Engine}

def callsOfFile (e : Engine) (t : Template) (fs : Files) (file top : Text)
    (replaced : Option BlockId) : List Call :=
  match fs.read (e.path file) with
  | .error _ => []
  | .ok text =>
    Fragment.callsOf e.dialect t.tree top (Inclusion.extract e.dialect t.nextInclusion text).1 replaced

def callsOf (e : Engine) (t : Template) (fs : Files) (file top : Text)
    (replaced : Option BlockId) : List Call :=
  match e.savedSnapshot? fs file with
  | none => t.callsOfFile e fs file top replaced
  | some s =>
    s.callsOf (s.blocks.entries.length + 1) [rootName] [rootName] ++
      match t.restore e top s with
      | (none, t) => t.callsOfFile e fs file top replaced
      | (some _, _) => []

theorem table_prepareFile (t : Template) (fs : Files) (file top : Text) (replaced : Option BlockId) :
    (t.prepareFile e fs file top replaced).2.tree.calls =
      internList (t.callsOfFile e fs file top replaced) t.tree.calls := by
  rw [prepareFile, callsOfFile]
  cases fs.read (e.path file) with
  | error why => rfl
  | ok text =>
    dsimp only
    rw [prepareText, ← Fragment.table_compile]
    dsimp only
    split <;> rename_i hr <;> rw [hr] <;> rfl

theorem table_prepare (t : Template) (fs : Files) (file top : Text) (replaced : Option BlockId) :
    (t.prepare e fs file top replaced).2.tree.calls =
      internList (t.callsOf e fs file top replaced) t.tree.calls := by
  rw [prepare, callsOf]
  cases e.savedSnapshot? fs file with
  | none => exact table_prepareFile t fs file top replaced
  | some s =>
    have hrestore : (t.restore e top s).2.tree.calls = _ :=
      s.table_restore e.dialect top t.tree.calls t.nextInclusion
    dsimp only
    rw [internList_append, ← hrestore]
    generalize t.restore e top s = r
    obtain ⟨r, u⟩ := r
    cases r with
    | none => exact table_prepareFile u fs file top replaced
    | some x =>
      dsimp only
      split <;> rfl

end Template

end BlockTemplate
