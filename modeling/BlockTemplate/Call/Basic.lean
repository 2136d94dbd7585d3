import BlockTemplate.Text.Basic

/-!
# Calls

A call names a function and its arguments. Equal calls share one number, under which the result is
kept for the length of a render, and the number of a call that no block makes any more is given to
the next new one.
-/

namespace BlockTemplate

structure Call where
  name : Text
  args : List Text
  deriving Repr, DecidableEq

abbrev CallId := Nat

namespace CallId

def memo (id : CallId) : Text := "__function_".toList ++ Text.decimal id ++ "__".toList

def isMemo (name : Text) : Bool :=
  match Text.expect "__function_".toList name with
  | none => false
  | some t =>
    let digits := t.takeWhile Char.isDigit
    digits ≠ [] && t.dropWhile Char.isDigit == "__".toList

end CallId

/-- The calls of a template by number, with gaps where a call was given up. -/
structure CallTable where
  slots : List (Option Call)
  deriving Repr, DecidableEq

namespace CallTable

def empty : CallTable := ⟨[]⟩

instance : Inhabited CallTable := ⟨empty⟩

def get? (t : CallTable) (id : CallId) : Option Call := t.slots[id]?.join

def find? (t : CallTable) (c : Call) : Option CallId := t.slots.idxOf? (some c)

def fresh (t : CallTable) : CallId := (t.slots.idxOf? none).getD t.slots.length

/-- Gives a call its number: the one it has, or the smallest free one. -/
def intern (t : CallTable) (c : Call) : CallId × CallTable :=
  match t.find? c with
  | some id => (id, t)
  | none =>
    let id := t.fresh
    if id < t.slots.length then (id, ⟨t.slots.set id (some c)⟩)
    else (id, ⟨t.slots ++ [some c]⟩)

def keepOnly (t : CallTable) (used : List CallId) : CallTable :=
  ⟨t.slots.mapIdx fun id c => if used.contains id then c else none⟩

end CallTable

end BlockTemplate
