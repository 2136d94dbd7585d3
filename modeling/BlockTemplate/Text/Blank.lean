import BlockTemplate.Text.Basic

/-!
# Character classes

Blank characters come in two sets: the Unicode property White_Space, used inside template content,
and the six characters that may stand between the parts of a tag.
-/

namespace BlockTemplate.Text

/-- The Unicode property White_Space. -/
def isBlank (c : Char) : Bool :=
  let n := c.toNat
  (9 ≤ n && n ≤ 13) || n == 0x20 || n == 0x85 || n == 0xA0 || n == 0x1680 ||
    (0x2000 ≤ n && n ≤ 0x200A) || n == 0x2028 || n == 0x2029 || n == 0x202F || n == 0x205F ||
    n == 0x3000

def isTagBlank (c : Char) : Bool :=
  let n := c.toNat
  (9 ≤ n && n ≤ 13) || n == 0x20

theorem isBlank_of_isTagBlank {c : Char} (h : isTagBlank c = true) : isBlank c = true := by
  simp only [isTagBlank, isBlank, Bool.or_eq_true] at h ⊢
  grind

def isBlockChar (c : Char) : Bool := c.isAlphanum || c == '_' || c == '-'

def isVariableChar (c : Char) : Bool := isBlockChar c || c == '.'

def isFunctionStart (c : Char) : Bool := c.isAlpha || c == '_'

def isFunctionChar (c : Char) : Bool := c.isAlphanum || c == '_'

def readFunctionName : Text → Option (Text × Text)
  | [] => none
  | c :: t =>
    if isFunctionStart c then some (c :: t.takeWhile isFunctionChar, t.dropWhile isFunctionChar)
    else none

def isFunctionName (t : Text) : Bool :=
  match readFunctionName t with
  | some (_, []) => true
  | _ => false

end BlockTemplate.Text
