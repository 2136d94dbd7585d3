import BlockTemplate.Dict
import BlockTemplate.Value.Basic

/-!
# Variables of values

A value is stored as variables with dotted names: each field, map key, index and variant name adds
one component, and each scalar is stored as its text. Entries are stored as they are reached, so a
fault part way leaves the earlier ones.
-/

namespace BlockTemplate

abbrev Pool := Dict Text Text

namespace Value

def joinName (name : Option Text) (key : Text) : Text :=
  match name with
  | .some name => name ++ '.' :: key
  | .none => key

def store (name : Option Text) (text : Text) (pool : Pool) : Except ValueFault Unit × Pool :=
  match name with
  | .some name => (.ok (), pool.insert name text)
  | .none => (.error .nameless, pool)

def flattenBytes (name : Option Text) : (index : Nat) → List UInt8 → Pool → Pool
  | _, [], pool => pool
  | index, b :: bs, pool =>
    flattenBytes name (index + 1) bs
      (pool.insert (joinName name (Text.decimal index)) (Text.decimal b.toNat))

mutual

/-- Stores a value in the pool under a name, or its entries under their own names. -/
def flatten (name : Option Text) : Value → Pool → Except ValueFault Unit × Pool
  | .bool b, pool => store name (if b then "true".toList else "false".toList) pool
  | .int n, pool => store name (Text.signedDecimal n) pool
  | .wide signed, pool => (.error (.wide signed), pool)
  | .float format bits, pool => store name (Decimal.floatText format bits) pool
  | .char c, pool => store name [c] pool
  | .text t, pool => store name t pool
  | .bytes bs, pool => (.ok (), flattenBytes name 0 bs pool)
  | .unit, pool => store name [] pool
  | .none, pool => store name [] pool
  | .some v, pool => flatten name v pool
  | .wrapper v, pool => flatten name v pool
  | .seq vs, pool => flattenSeq name 0 vs pool
  | .map parts, pool => flattenMap name .none parts pool
  | .record fields, pool => flattenFields name fields pool
  | .unitVariant variant, pool => store name variant pool
  | .wrapperVariant variant v, pool => flatten (.some (joinName name variant)) v pool
  | .seqVariant variant vs, pool => flattenSeq (.some (joinName name variant)) 0 vs pool
  | .recordVariant variant fields, pool => flattenFields (.some (joinName name variant)) fields pool
  | .fail message, pool => (.error (.custom message), pool)

def flattenSeq (name : Option Text) (index : Nat) :
    List Value → Pool → Except ValueFault Unit × Pool
  | [], pool => (.ok (), pool)
  | v :: vs, pool =>
    match flatten (.some (joinName name (Text.decimal index))) v pool with
    | (.ok (), pool) => flattenSeq name (index + 1) vs pool
    | failed => failed

def flattenFields (name : Option Text) :
    List (Text × Value) → Pool → Except ValueFault Unit × Pool
  | [], pool => (.ok (), pool)
  | (field, v) :: fields, pool =>
    match flatten (.some (joinName name field)) v pool with
    | (.ok (), pool) => flattenFields name fields pool
    | failed => failed

/-- Stores the values of a map under their keys; `pending` is a key that waits for its value. -/
def flattenMap (name : Option Text) (pending : Option Text) :
    List MapPart → Pool → Except ValueFault Unit × Pool
  | [], pool => (.ok (), pool)
  | .key k :: parts, pool =>
    match k.keyText with
    | .ok key => flattenMap name (.some key) parts pool
    | .error e => (.error e, pool)
  | .value v :: parts, pool =>
    match pending with
    | .none => (.error .keyless, pool)
    | .some key =>
      match flatten (.some (joinName name key)) v pool with
      | (.ok (), pool) => flattenMap name .none parts pool
      | failed => failed

end

end Value

end BlockTemplate
