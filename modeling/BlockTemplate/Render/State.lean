import BlockTemplate.Tree.Basic
import BlockTemplate.Value.Flatten

/-!
# The state of rendering

Local variables are used up by the first block that lists them, global ones never are. A block
collects output until its parent takes it, and may be marked for the next render of its parent.
-/

namespace BlockTemplate

inductive Mark where
  | touched
  | hidden
  deriving Repr, DecidableEq

structure State where
  locals : Pool := ∅
  globals : Pool := ∅
  outputs : Dict BlockId Text := ∅
  marks : Dict BlockId Mark := ∅
  /-- whether the root was ever rendered -/
  rootRendered : Bool := false
  deriving DecidableEq

namespace State

def output (s : State) (id : BlockId) : Text := (s.outputs.get? id).getD []

def append (s : State) (id : BlockId) (t : Text) : State :=
  { s with outputs := s.outputs.insert id (s.output id ++ t) }

def clearOutput (s : State) (id : BlockId) : State := { s with outputs := s.outputs.erase id }

def isHidden (s : State) (id : BlockId) : Bool := s.marks.get? id = some .hidden

def isTouched (s : State) (id : BlockId) : Bool := s.marks.get? id = some .touched

def mark (s : State) (id : BlockId) (m : Mark) : State := { s with marks := s.marks.insert id m }

def unmark (s : State) (id : BlockId) : State := { s with marks := s.marks.erase id }

def fresh (s : State) : State := { globals := s.globals }

def forget (s : State) (id : BlockId) : State := (s.clearOutput id).unmark id

end State

end BlockTemplate
