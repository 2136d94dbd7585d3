import BlockTemplate.Call.Basic
import BlockTemplate.Text.Blank

/-!
# Arguments of calls

Arguments are separated by commas and end with a parenthesis. A quoted argument holds anything, a
backslash making the next character plain; a bare one is trimmed at both ends and may hold quoted
sections, which stay as written.
-/

namespace BlockTemplate

inductive CallFault where
  | unexpected (c : Char)
  | unexpectedAfterQuote (c : Char)
  | unexpectedEnd
  deriving Repr, DecidableEq

namespace Arguments

inductive Phase where
  | first
  | next
  | bare
  | bareQuoted (quote : Char)
  | quoted (quote : Char)
  | escaped (quote : Char)
  | afterQuote
  deriving Repr, DecidableEq

structure Failure where
  fault : CallFault
  rest : Text
  deriving Repr, DecidableEq

/--
Reads arguments in a phase, after the finished arguments `done` and with `arg` read of the current
one, last character first. Returns all arguments and the text behind the closing parenthesis.
-/
def readFrom : Phase → (done : List Text) → (arg : Text) → Text → Except Failure (List Text × Text)
  | _, _, _, [] => .error ⟨.unexpectedEnd, []⟩
  | .first, done, arg, c :: t =>
    if c = ')' then .ok (done, t)
    else if c = ',' then .error ⟨.unexpected c, t⟩
    else if c = '\'' ∨ c = '"' then readFrom (.quoted c) done arg t
    else if Text.isBlank c then readFrom .first done arg t
    else readFrom .bare done (c :: arg) t
  | .next, done, arg, c :: t =>
    if c = ')' ∨ c = ',' then .error ⟨.unexpected c, t⟩
    else if c = '\'' ∨ c = '"' then readFrom (.quoted c) done arg t
    else if Text.isBlank c then readFrom .next done arg t
    else readFrom .bare done (c :: arg) t
  | .bare, done, arg, c :: t =>
    if c = ')' then .ok (done ++ [(arg.dropWhile Text.isBlank).reverse], t)
    else if c = ',' then readFrom .next (done ++ [(arg.dropWhile Text.isBlank).reverse]) [] t
    else if c = '\'' ∨ c = '"' then readFrom (.bareQuoted c) done (c :: arg) t
    else readFrom .bare done (c :: arg) t
  | .bareQuoted q, done, arg, c :: t =>
    if c = q then readFrom .bare done (c :: arg) t
    else readFrom (.bareQuoted q) done (c :: arg) t
  | .quoted q, done, arg, c :: t =>
    if c = '\\' then readFrom (.escaped q) done arg t
    else if c = q then readFrom .afterQuote done arg t
    else readFrom (.quoted q) done (c :: arg) t
  | .escaped q, done, arg, c :: t => readFrom (.quoted q) done (c :: arg) t
  | .afterQuote, done, arg, c :: t =>
    if c = ')' then .ok (done ++ [arg.reverse], t)
    else if c = ',' then readFrom .next (done ++ [arg.reverse]) [] t
    else if Text.isBlank c then readFrom .afterQuote done arg t
    else .error ⟨.unexpectedAfterQuote c, t⟩

def read (t : Text) : Except Failure (List Text × Text) := readFrom .first [] [] t

end Arguments

namespace Call

/--
Reads a call behind the text that begins it: a function name, blanks and arguments in parentheses.
Without a name and a parenthesis there is no call; with them, faulty arguments are a failure.
-/
def read (t : Text) : Option (Except Arguments.Failure Call × Text) := do
  let (name, t) ← Text.readFunctionName t
  let t ← Text.expect ['('] (t.dropWhile Text.isBlank)
  match Arguments.read t with
  | .ok (args, t) => return (.ok ⟨name, args⟩, t)
  | .error e => return (.error e, e.rest)

end Call

end BlockTemplate
