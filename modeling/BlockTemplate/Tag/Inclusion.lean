import BlockTemplate.Dialect
import BlockTemplate.Tag.Comment

/-!
# Inclusions

An inclusion stands in compiled content as a placeholder of its own until the file is loaded. The
names of these placeholders are numbered through all files of a template.
-/

namespace BlockTemplate

structure Inclusion where
  name : Text
  path : Text
  deriving Repr, DecidableEq

namespace Inclusion

def numbered (n : Nat) : Text := "trigger_".toList ++ Text.decimal n

def mark (d : Dialect) : (next : Nat) → List (Piece Tag) → Text × List Inclusion
  | _, [] => ([], [])
  | next, .mark _ (.includes path) :: rest =>
    let (text, inclusions) := mark d (next + 1) rest
    (d.token (numbered next) ++ text, ⟨numbered next, path⟩ :: inclusions)
  | next, p :: rest =>
    let (text, inclusions) := mark d next rest
    (p.raw ++ text, inclusions)

def extract (d : Dialect) (next : Nat) (source : Text) : Text × List Inclusion :=
  mark d next (Tag.pieces (Tag.stripComments source))

end Inclusion

end BlockTemplate
