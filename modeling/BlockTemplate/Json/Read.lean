import BlockTemplate.Json.Basic
import BlockTemplate.Text.Utf8

/-!
# Reading JSON

A strict reader: blanks are space, tab, line feed and carriage return, numbers have no leading
zeros, strings hold no control characters, and nothing but blanks follows the value. What is read
are the bytes of a file. Bytes that belong to no character may stand within strings only, and a
string that holds one has no text.
-/

namespace BlockTemplate.Json

open Text (Decoded)

def isSpace (c : Option Char) : Bool :=
  c == some ' ' || c == some '\t' || c == some '\n' || c == some '\r'

def skip (t : Decoded) : Decoded := t.dropWhile isSpace

def readWord (word : Text) (t : Decoded) : Option Decoded := Text.expect (word.map some) t

def readRun (p : Char → Bool) : Decoded → Text × Decoded
  | some c :: t =>
    if p c then
      let (run, t) := readRun p t
      (c :: run, t)
    else ([], some c :: t)
  | t => ([], t)

def hexValue (c : Char) : Option Nat :=
  let n := c.toNat
  if 48 ≤ n ∧ n ≤ 57 then some (n - 48)
  else if 97 ≤ n ∧ n ≤ 102 then some (n - 87)
  else if 65 ≤ n ∧ n ≤ 70 then some (n - 55)
  else none

def hexUnit (a b c d : Char) : Option Nat := do
  return (← hexValue a) * 4096 + (← hexValue b) * 256 + (← hexValue c) * 16 + (← hexValue d)

def escaped (c : Char) : Option Char :=
  if c = '"' ∨ c = '\\' ∨ c = '/' then some c
  else if c = 'b' then some '\x08'
  else if c = 'f' then some '\x0c'
  else if c = 'n' then some '\n'
  else if c = 'r' then some '\r'
  else if c = 't' then some '\t'
  else none

/--
A string as its code points and halves of surrogate pairs, with a gap for each byte that belongs to
no character.
-/
abbrev Units := List (Option Nat)

def readUnits : Decoded → Option (Units × Decoded)
  | [] => none
  | some '"' :: t => some ([], t)
  | some '\\' :: some 'u' :: some a :: some b :: some c :: some d :: t => do
    let n ← hexUnit a b c d
    let (units, t) ← readUnits t
    return (some n :: units, t)
  | some '\\' :: some c :: t => do
    let c ← escaped c
    let (units, t) ← readUnits t
    return (some c.toNat :: units, t)
  | some c :: t =>
    if c.toNat < 32 ∨ c = '\\' then none
    else do
      let (units, t) ← readUnits t
      return (some c.toNat :: units, t)
  | none :: t => do
    let (units, t) ← readUnits t
    return (none :: units, t)

def isHighHalf (n : Nat) : Bool := 0xD800 ≤ n && n < 0xDC00

def isLowHalf (n : Nat) : Bool := 0xDC00 ≤ n && n < 0xE000

def joinUnits : Units → Option Text
  | [] => some []
  | some high :: some low :: rest =>
    if isHighHalf high then
      if isLowHalf low then
        (joinUnits rest).map
          (Char.ofNat (0x10000 + (high - 0xD800) * 0x400 + (low - 0xDC00)) :: ·)
      else none
    else if isLowHalf high then none
    else (joinUnits (some low :: rest)).map (Char.ofNat high :: ·)
  | [some n] => if isHighHalf n || isLowHalf n then none else some [Char.ofNat n]
  | some _ :: none :: _ => none
  | none :: _ => none

def readString (t : Decoded) : Option (Option Text × Decoded) :=
  (readUnits t).map fun (units, t) => (joinUnits units, t)

def readDigits (t : Decoded) : Option (Text × Decoded) :=
  match readRun Char.isDigit t with
  | ([], _) => none
  | r => some r

def readWhole : Decoded → Option (Text × Decoded)
  | some '0' :: t => some (['0'], t)
  | t => readDigits t

def readFraction : Decoded → Option (Text × Decoded)
  | some '.' :: t => (readDigits t).map fun (digits, t) => ('.' :: digits, t)
  | t => some ([], t)

def readSign : Decoded → Text × Decoded
  | some '+' :: t => (['+'], t)
  | some '-' :: t => (['-'], t)
  | t => ([], t)

def readExponent : Decoded → Option (Text × Decoded)
  | some c :: t =>
    if c = 'e' ∨ c = 'E' then
      let (sign, t) := readSign t
      (readDigits t).map fun (digits, t) => (c :: sign ++ digits, t)
    else some ([], some c :: t)
  | t => some ([], t)

def readNumber (t : Decoded) : Option (Text × Decoded) := do
  let (minus, t) := match t with
    | some '-' :: t => (['-'], t)
    | t => ([], t)
  let (whole, t) ← readWhole t
  let (fraction, t) ← readFraction t
  let (exponent, t) ← readExponent t
  return (minus ++ whole ++ fraction ++ exponent, t)

mutual

/-- Reads a value, blanks before it included. Every step down takes one from the fuel. -/
def readValue : (fuel : Nat) → Decoded → Option (Json × Decoded)
  | 0, _ => none
  | fuel + 1, t =>
    match skip t with
    | [] => none
    | some '"' :: t => (readString t).map fun (s, t) => (.string s, t)
    | some '[' :: t =>
      match skip t with
      | some ']' :: t => some (.array [], t)
      | t => (readItems fuel t).map fun (items, t) => (.array items, t)
    | some '\x7b' :: t =>
      match skip t with
      | some '\x7d' :: t => some (.object [], t)
      | t => (readFields fuel t).map fun (fields, t) => (.object fields, t)
    | t =>
      ((readWord "null".toList t).map (Json.null, ·)) <|>
      ((readWord "true".toList t).map (Json.bool true, ·)) <|>
      ((readWord "false".toList t).map (Json.bool false, ·)) <|>
      ((readNumber t).map fun (raw, t) => (Json.number raw, t))

def readItems : (fuel : Nat) → Decoded → Option (List Json × Decoded)
  | 0, _ => none
  | fuel + 1, t => do
    let (j, t) ← readValue fuel t
    match skip t with
    | some ',' :: t => do
      let (js, t) ← readItems fuel t
      return (j :: js, t)
    | some ']' :: t => return ([j], t)
    | _ => none

def readFields : (fuel : Nat) → Decoded → Option (List (Option Text × Json) × Decoded)
  | 0, _ => none
  | fuel + 1, t =>
    match skip t with
    | some '"' :: t => do
      let (key, t) ← readString t
      match skip t with
      | some ':' :: t => do
        let (j, t) ← readValue fuel t
        match skip t with
        | some ',' :: t => do
          let (fields, t) ← readFields fuel t
          return ((key, j) :: fields, t)
        | some '\x7d' :: t => return ([(key, j)], t)
        | _ => none
      | _ => none
    | _ => none

end

/-- The value that bytes hold. No value is deeper nested than twice the number of its characters. -/
def read? (bytes : List UInt8) : Option Json :=
  let t := Text.decode bytes
  match readValue (2 * t.length + 1) t with
  | some (j, rest) => if skip rest = [] then some j else none
  | none => none

def text? : Json → Option Text
  | .string t => t
  | _ => none

def listOf? {α : Type} (f : Json → Option α) : Json → Option (List α)
  | .array items => items.mapM f
  | _ => none

def entriesOf? {α : Type} (f : Json → Option α) : Json → Option (List (Text × α))
  | .object fields => fields.mapM fun (key, j) => do return (← key, ← f j)
  | _ => none

/-- The one field of a name; `some none` if there is none, and a repeated field is a fault. -/
def field? (fields : List (Option Text × Json)) (name : Text) : Option (Option Json) :=
  match fields.filter (·.1 = some name) with
  | [] => some none
  | [f] => some (some f.2)
  | _ => none

/--
The fields of a record in the order of their names. A record is an object, whose other fields do
not matter, or an array of its fields in order, of which the last ones may be missing.
-/
def record? (names : List Text) : Json → Option (List (Option Json))
  | .object fields =>
    if fields.all (·.1.isSome) then names.mapM (field? fields) else none
  | .array items =>
    if items.length ≤ names.length then
      some (items.map some ++ List.replicate (names.length - items.length) none)
    else none
  | _ => none

end BlockTemplate.Json
