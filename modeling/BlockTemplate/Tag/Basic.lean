import BlockTemplate.Text.Blank
import BlockTemplate.Text.Piece

/-!
# Tags

Tags divide template source into blocks, comments and inclusions. A tag is a comment of the page: it
begins with `<!--`, has blanks between its parts and ends with `-->`. No tag can begin inside
another one.
-/

namespace BlockTemplate

inductive Tag where
  | opens (name : Text)
  | closes (name : Text)
  | comment
  | endComment
  | includes (path : Text)
  deriving Repr, DecidableEq

namespace Tag

inductive Keyword where
  | opens
  | closes
  | comment
  | endComment
  | includes
  deriving Repr, DecidableEq

def expectAnyCase : Text → Text → Option Text
  | [], t => some t
  | _ :: _, [] => none
  | k :: word, c :: t => if c.toUpper = k then expectAnyCase word t else none

/-- Reads a keyword; only the one of inclusions may be in lower case. -/
def Keyword.read (t : Text) : Option (Keyword × Text) :=
  ((Text.expect "BEGIN".toList t).map (Keyword.opens, ·)) <|>
  ((Text.expect "END".toList t).map (Keyword.closes, ·)) <|>
  ((Text.expect "COMMENT".toList t).map (Keyword.comment, ·)) <|>
  ((Text.expect "/COMMENT".toList t).map (Keyword.endComment, ·)) <|>
  ((expectAnyCase "INCLUDE".toList t).map (Keyword.includes, ·))

def readGap (t : Text) : Option Text := (Text.readSome Text.isTagBlank t).map (·.2)

def readOperand (p : Char → Bool) (t : Text) : Option (Text × Text) := do
  let (word, t) ← Text.readSome p t
  let t ← readGap t
  return (word, t)

def Keyword.complete (k : Keyword) (t : Text) : Option (Tag × Text) :=
  match k with
  | .opens => (readOperand Text.isBlockChar t).map fun (name, t) => (.opens name, t)
  | .closes => (readOperand Text.isBlockChar t).map fun (name, t) => (.closes name, t)
  | .comment => some (.comment, t)
  | .endComment => some (.endComment, t)
  | .includes => (readOperand (!Text.isBlank ·) t).map fun (path, t) => (.includes path, t)

def opening : Text := "<!--".toList

def read (t : Text) : Option (Tag × Text) := do
  let t ← readGap t
  let (k, t) ← Keyword.read t
  let t ← readGap t
  let (tag, t) ← k.complete t
  let t ← Text.expect "-->".toList t
  return (tag, t)

def pieces (source : Text) : List (Piece Tag) := Text.pieces opening read source

end Tag

end BlockTemplate
