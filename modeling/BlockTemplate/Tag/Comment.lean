import BlockTemplate.Tag.Basic

/-!
# Comments in template source

A comment runs from its tag to the nearest closing tag. Without a closing tag it is no comment, and
the rest of the source stays as it is.
-/

namespace BlockTemplate.Tag

mutual

def outside : List (Piece Tag) → Text
  | [] => []
  | .mark raw .comment :: rest => (inside? rest).getD (raw ++ rest.flatMap Piece.raw)
  | p :: rest => p.raw ++ outside rest

/-- The text behind the nearest closing tag of a comment, if one follows. -/
def inside? : List (Piece Tag) → Option Text
  | [] => none
  | .mark _ .endComment :: rest => some (outside rest)
  | _ :: rest => inside? rest

end

def stripComments (source : Text) : Text := outside (pieces source)

end BlockTemplate.Tag
