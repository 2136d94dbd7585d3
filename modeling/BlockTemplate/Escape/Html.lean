import BlockTemplate.Text.Basic

/-!
# HTML escapes

Text for HTML content and for attribute values in double quotes. `Escape.html` writes the four
special characters as named references; `Escape.htmlAscii` also writes every character outside
ASCII as a decimal reference.
-/

namespace BlockTemplate.Escape

def htmlChar (c : Char) : Text :=
  if c = '&' then "&amp;".toList
  else if c = '"' then "&quot;".toList
  else if c = '<' then "&lt;".toList
  else if c = '>' then "&gt;".toList
  else [c]

def html (t : Text) : Text := t.flatMap htmlChar

def decimalReference (c : Char) : Text := "&#".toList ++ Text.decimal c.toNat ++ [';']

def asciiChar (c : Char) : Text := if c.toNat < 128 then [c] else decimalReference c

def htmlAscii (t : Text) : Text := (html t).flatMap asciiChar

end BlockTemplate.Escape
