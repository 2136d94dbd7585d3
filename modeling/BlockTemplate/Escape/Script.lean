import BlockTemplate.Text.Basic

/-!
# Escapes for string literals in scripts

The result may stand between quotes of either kind: it holds no quote and no line break, and each
backslash in it begins an escape.
-/

namespace BlockTemplate.Escape

def scriptChar (c : Char) : Text :=
  if c = '\r' then ['\\', 'r']
  else if c = '\n' then ['\\', 'n']
  else if c = '\t' then ['\\', 't']
  else if c = '\'' then ['\\', 'x', '2', '7']
  else if c = '"' then ['\\', 'x', '2', '2']
  else if c = '\\' then ['\\', '\\']
  else [c]

def script (t : Text) : Text := t.flatMap scriptChar

end BlockTemplate.Escape
