import BlockTemplate.Decimal.Float
import BlockTemplate.Fault

/-!
# Values

Values that variables are set to: scalars, options, sequences, maps and records, and the variants of
sum types, which carry their name. A map is given by its parts in the order in which they come, so
that a key may lack its value or a value its key.
-/

namespace BlockTemplate

mutual

inductive Value where
  | bool (b : Bool)
  | int (n : Int)
  /-- an integer of 128 bits, which no variable can hold -/
  | wide (signed : Bool)
  | float (format : Decimal.FloatFormat) (bits : Nat)
  | char (c : Char)
  | text (t : Text)
  | bytes (bs : List UInt8)
  /-- the empty value, also of a record type without fields -/
  | unit
  | none
  | some (v : Value)
  | wrapper (v : Value)
  | seq (vs : List Value)
  | map (parts : List MapPart)
  | record (fields : List (Text × Value))
  | unitVariant (variant : Text)
  | wrapperVariant (variant : Text) (v : Value)
  | seqVariant (variant : Text) (vs : List Value)
  | recordVariant (variant : Text) (fields : List (Text × Value))
  | fail (message : Text)

/-- A part of a map: a key, or the value for the key last given. -/
inductive MapPart where
  | key (v : Value)
  | value (v : Value)

end

namespace Value

def keyText : Value → Except ValueFault Text
  | .bool b => .ok (if b then "true".toList else "false".toList)
  | .int n => .ok (Text.signedDecimal n)
  | .char c => .ok [c]
  | .text t => .ok t
  | .unitVariant variant => .ok variant
  | .some v => v.keyText
  | .wrapper v => v.keyText
  | .wide signed => .error (.wide signed)
  | .fail message => .error (.custom message)
  | _ => .error .badKey

end Value

end BlockTemplate
