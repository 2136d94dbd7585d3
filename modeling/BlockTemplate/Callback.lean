import BlockTemplate.Call.Basic

/-!
# Callbacks

A callback is the function behind a name in calls. Its result may depend on how it was called
before, so it is given the arguments of its earlier calls, oldest first, beside the present ones.
-/

namespace BlockTemplate

structure Callback where
  run : (earlier : List (List Text)) → (args : List Text) → Text
  /-- whether arguments are passed as written, without values for their placeholders -/
  keepsArgs : Bool

namespace Callback

def arg (args : List Text) (i : Nat) : Text := args.getD i []

def ofArgs (f : List Text → Text) : Callback := ⟨fun _ args => f args, false⟩

def nullary (text : Text) : Callback := ofArgs fun _ => text

def unary (f : Text → Text) : Callback := ofArgs fun args => f (arg args 0)

def binary (f : Text → Text → Text) : Callback := ofArgs fun args => f (arg args 0) (arg args 1)

def ternary (f : Text → Text → Text → Text) : Callback :=
  ofArgs fun args => f (arg args 0) (arg args 1) (arg args 2)

def keepingArgs (c : Callback) : Callback := { c with keepsArgs := true }

def Pure (c : Callback) : Prop := ∀ earlier earlier' args, c.run earlier args = c.run earlier' args

end Callback

structure Invocation where
  id : CallId
  name : Text
  args : List Text
  deriving Repr, DecidableEq

abbrev CallLog := List Invocation

def CallLog.of (log : CallLog) (name : Text) : List (List Text) :=
  (log.filter (·.name = name)).map (·.args)

def CallLog.forget (log : CallLog) (name : Text) : CallLog := log.filter (·.name ≠ name)

end BlockTemplate
