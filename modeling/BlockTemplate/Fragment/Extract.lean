import BlockTemplate.Tag.Basic
import BlockTemplate.Tree.Edit

/-!
# Blocks in template source

A block runs from its opening tag to the closing tag of the same name. An opening tag that is never
closed is literal text, and the blocks inside it belong to the block around it; a closing tag
without an open block of its name is literal text as well.
-/

namespace BlockTemplate

structure Frame where
  name : Text
  tag : Text
  /-- the content, last character first -/
  back : Text := []
  children : List Nat := []
  deriving Repr, DecidableEq

namespace Frame

def content (f : Frame) : Text := f.back.reverse

def write (f : Frame) (t : Text) : Frame := { f with back := t.reverse ++ f.back }

@[simp] theorem content_write (f : Frame) (t : Text) : (f.write t).content = f.content ++ t := by
  simp [content, write]

/-- Takes an inner frame that was never closed back as literal text. -/
def absorb (outer inner : Frame) : Frame :=
  { outer with
    back := inner.back ++ (inner.tag.reverse ++ outer.back)
    children := outer.children ++ inner.children }

@[simp] theorem content_absorb (outer inner : Frame) :
    (outer.absorb inner).content = outer.content ++ inner.tag ++ inner.content := by
  simp [content, absorb]

/-- The innermost frame of a name, with all frames inside it taken back, and those around it. -/
def closing? (name : Text) (inner : Frame) : List Frame → Option (Frame × List Frame)
  | [] => if inner.name = name then some (inner, []) else none
  | outer :: rest =>
    if inner.name = name then some (inner, outer :: rest)
    else closing? name (outer.absorb inner) rest

end Frame

structure Extraction where
  base : Frame
  opened : List Frame
  closed : List Block
  deriving Repr, DecidableEq

namespace Extraction

def start (top : Text) : Extraction := ⟨⟨top, [], [], []⟩, [], []⟩

def onInner (f : Frame → Frame) (e : Extraction) : Extraction :=
  match e.opened with
  | [] => { e with base := f e.base }
  | inner :: rest => { e with opened := f inner :: rest }

def closing? (e : Extraction) (name : Text) : Option (Frame × List Frame) :=
  match e.opened with
  | [] => none
  | inner :: rest => inner.closing? name rest

def names (e : Extraction) (name : Text) : Bool :=
  e.base.name = name || e.closed.any (·.name = name)

def finish (d : Dialect) (e : Extraction) (frame : Frame) (around : List Frame) : Extraction :=
  let e : Extraction := { e with
    opened := around
    closed := e.closed ++
      [{ name := frame.name, content := frame.content, children := frame.children }] }
  e.onInner fun f =>
    { f.write (d.token (childName frame.name)) with children := f.children ++ [e.closed.length] }

def step (d : Dialect) (e : Extraction) : Piece Tag → Except Fault Extraction
  | .mark raw (.opens name) => .ok { e with opened := ⟨name, raw, [], []⟩ :: e.opened }
  | .mark raw (.closes name) =>
    match e.closing? name with
    | none => .ok (e.onInner (·.write raw))
    | some (frame, around) =>
      if e.names name then .error (.duplicateBlock name) else .ok (e.finish d frame around)
  | p => .ok (e.onInner (·.write p.raw))

def whole (e : Extraction) : Frame :=
  match e.opened with
  | [] => e.base
  | inner :: rest => e.base.absorb (rest.foldl (fun inner outer => outer.absorb inner) inner)

def blocks (e : Extraction) : Fragment :=
  let top := e.whole
  { name := top.name, content := top.content, children := top.children } :: e.closed

end Extraction

namespace Fragment

def withParents (f : Fragment) : Fragment :=
  f.mapIdx fun i b => { b with parent := f.findIdx? (fun p => p.children.contains i) }

/-- Splits source into blocks; the first one is the whole source under the name `top`. -/
def extract (d : Dialect) (top source : Text) : Except Fault Fragment := do
  let e ← (Tag.pieces source).foldlM (Extraction.step d) (Extraction.start top)
  return withParents e.blocks

end Fragment

end BlockTemplate
