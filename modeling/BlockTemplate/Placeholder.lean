import BlockTemplate.Dialect
import BlockTemplate.Text.Blank

/-!
# Placeholders

A placeholder is a variable name between the delimiters of the dialect. In template source a name
may carry a filter, a function that its value goes through. Text that is spliced together later is
searched for plain names only.
-/

namespace BlockTemplate

structure Placeholder where
  name : Text
  filter : Option Text
  deriving Repr, DecidableEq

namespace Placeholder

def readName (d : Dialect) (t : Text) : Option (Text × Text) := do
  let (name, t) ← Text.readSome Text.isVariableChar t
  let t ← Text.expect d.closer t
  return (name, t)

def readFilter : Text → Option (Text × Text)
  | ':' :: t => Text.readFunctionName t
  | _ => none

def read (d : Dialect) (t : Text) : Option (Placeholder × Text) := do
  let (name, t) ← Text.readSome Text.isVariableChar t
  match readFilter t with
  | some (f, t) => do
    let t ← Text.expect d.closer t
    return (⟨name, some f⟩, t)
  | none => do
    let t ← Text.expect d.closer t
    return (⟨name, none⟩, t)

/-- Reads a name that may have blanks on both sides, and the closing delimiter. -/
def readLoose (d : Dialect) (t : Text) : Option (Text × Text) := do
  let (name, t) ← Text.readSome Text.isVariableChar (t.dropWhile Text.isBlank)
  let t ← Text.expect d.closer (t.dropWhile Text.isBlank)
  return (name, t)

end Placeholder

namespace Dialect

def placeholders (d : Dialect) (t : Text) : List (Piece Placeholder) :=
  Text.pieces d.opener (Placeholder.read d) t

def names (d : Dialect) (t : Text) : List (Piece Text) :=
  Text.pieces d.opener (Placeholder.readName d) t

/--
Writes a value for each plain name that `f` knows and leaves the others as they stand. One pass:
what is written is not searched again.
-/
def splice (d : Dialect) (f : Text → Option Text) (t : Text) : Text := Piece.fill f (d.names t)

def strip (d : Dialect) (t : Text) : Text :=
  Piece.fill (fun _ => some []) (Text.pieces d.opener (Placeholder.readLoose d) t)

end Dialect

end BlockTemplate
