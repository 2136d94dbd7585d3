import BlockTemplate.Text.Basic

/-!
# JSON values

Numbers are kept as written, and the fields of an object stay in order, repeated ones included. The
text of a string read from a file is missing if its bytes and escapes make no text; such a string is
no fault as long as nobody asks for it.
-/

namespace BlockTemplate

inductive Json where
  | null
  | bool (b : Bool)
  | number (raw : Text)
  | string (t : Option Text)
  | array (items : List Json)
  | object (fields : List (Option Text × Json))

namespace Json

def ofText (t : Text) : Json := .string (some t)

def ofFields (fields : List (Text × Json)) : Json := .object (fields.map fun f => (some f.1, f.2))

def hexDigit (n : Nat) : Char := Char.ofNat (if n < 10 then 48 + n else 87 + n)

def escapeChar (c : Char) : Text :=
  if c = '"' then ['\\', '"']
  else if c = '\\' then ['\\', '\\']
  else if c = '\x08' then ['\\', 'b']
  else if c = '\t' then ['\\', 't']
  else if c = '\n' then ['\\', 'n']
  else if c = '\x0c' then ['\\', 'f']
  else if c = '\r' then ['\\', 'r']
  else if c.toNat < 32 then
    ['\\', 'u', '0', '0', hexDigit (c.toNat / 16), hexDigit (c.toNat % 16)]
  else [c]

def quote (t : Text) : Text := '"' :: t.flatMap escapeChar ++ ['"']

mutual

def render : Json → Text
  | .null => "null".toList
  | .bool b => if b then "true".toList else "false".toList
  | .number raw => raw
  | .string t => quote (t.getD [])
  | .array items => '[' :: renderItems items ++ [']']
  | .object fields => '\x7b' :: renderFields fields ++ ['\x7d']

def renderItems : List Json → Text
  | [] => []
  | [j] => render j
  | j :: js => render j ++ ',' :: renderItems js

def renderFields : List (Option Text × Json) → Text
  | [] => []
  | [(key, j)] => quote (key.getD []) ++ ':' :: render j
  | (key, j) :: fields => quote (key.getD []) ++ ':' :: render j ++ ',' :: renderFields fields

end

end Json

end BlockTemplate
