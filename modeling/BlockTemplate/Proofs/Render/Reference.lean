import BlockTemplate.Placeholder
import BlockTemplate.Proofs.Render.Within

/-!
# What rendering means

A block is described by the state that the render starts from, and by nothing that happens on the
way: what it owns, whether it is empty, and what it puts out.
-/

namespace BlockTemplate

/-- The engine and the state of a render, and the blocks below its top in order. -/
structure Reference where
  engine : Engine
  state : State
  order : List (BlockId × Block)

namespace Reference

def listed (bs : List (BlockId × Block)) : List Text := bs.flatMap (·.2.vars)

/-- Whether a block lists a variable that is set and that no block before it lists. -/
def owns (r : Reference) (id : BlockId) (b : Block) : Bool :=
  b.vars.any fun x =>
    (r.state.locals.get? x).isSome && !(listed (r.order.takeWhile (·.1 ≠ id))).contains x

def emits (r : Reference) (id : BlockId) (nonempty : Bool) : Bool :=
  nonempty || id == rootId || !r.engine.options.removeEmpty || r.state.isTouched id

mutual

/-- Whether a block owns a variable, or a child that is not hidden has output. -/
def nonempty (r : Reference) : Outline → Bool
  | .node id b cs => r.owns id b || r.anyFull cs

/-- The content of a block, with each child in place of its token, if the block is put out. -/
def piece (r : Reference) : Outline → Text
  | .node id b cs =>
    if r.emits id (r.owns id b || r.anyFull cs) then r.engine.dialect.splice (r.tokens cs) b.content
    else []

def anyFull (r : Reference) : List Outline → Bool
  | [] => false
  | c :: cs =>
    (!r.state.isHidden c.id && r.state.output c.id ++ r.piece c ≠ []) || r.anyFull cs

def tokens (r : Reference) : List Outline → Text → Option Text
  | [], _ => none
  | c :: cs, x =>
    (r.tokens cs x).or
      (if x = childName c.block.name then
        some (if r.state.isHidden c.id then [] else r.state.output c.id ++ r.piece c)
      else none)

end

/-- The value of a variable that some block lists, a global one before a local one. -/
def value (r : Reference) (x : Text) : Option Text :=
  if (listed r.order).contains x then (r.state.globals.get? x).or (r.state.locals.get? x) else none

/-- What the outermost block puts out: its piece, with the values written in one pass. -/
def text (r : Reference) (o : Outline) : Text := r.engine.dialect.splice r.value (r.piece o)

theorem listed_append (bs cs : List (BlockId × Block)) :
    listed (bs ++ cs) = listed bs ++ listed cs := List.flatMap_append

theorem listed_cons (id : BlockId) (b : Block) (bs : List (BlockId × Block)) :
    listed ((id, b) :: bs) = b.vars ++ listed bs := List.flatMap_cons

end Reference

end BlockTemplate
