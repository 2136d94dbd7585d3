import BlockTemplate.Render.Pass
import BlockTemplate.Template.Basic

/-!
# Output of templates

Rendering a block adds to its output. Output that is handed out has the placeholders left in it
removed, as far as the options say so, and data that was kept from being read as placeholders looks
again as it did.
-/

namespace BlockTemplate

structure Sink where
  written : Text
  writesLeft : Option Nat
  deriving Repr, DecidableEq

namespace Sink

def write? (s : Sink) (t : Text) : Option Sink :=
  if t = [] then some s
  else
    match s.writesLeft with
    | none => some { s with written := s.written ++ t }
    | some 0 => none
    | some (n + 1) => some ⟨s.written ++ t, some n⟩

end Sink

namespace Template

def renderAt (e : Engine) (t : Template) (id : BlockId) (log : CallLog) :
    Bool × Template × CallLog :=
  match t.tree.outline? id with
  | none => (true, t, log)
  | some o =>
    let (isEmpty, p) := Pass.run e t.tree.calls o t.state log
    (isEmpty, { t with state := p.state }, p.log)

def render (e : Engine) (t : Template) (block : Text) (log : CallLog) :
    Except Fault Bool × Template × CallLog :=
  match t.tree.lookup block with
  | .error fault => (.error fault, t, log)
  | .ok id =>
    let (isEmpty, t, log) := t.renderAt e id log
    (.ok isEmpty, t, log)

def renderCurrent (e : Engine) (t : Template) (log : CallLog) : Bool × Template × CallLog :=
  t.renderAt e t.current log

def finish (e : Engine) (output : Text) : Text :=
  let output := if e.options.removeUnknown then e.dialect.strip output else output
  if e.options.preserveData then e.dialect.unprotect output else output

def outputAt (e : Engine) (t : Template) (id : BlockId) (log : CallLog) :
    Text × Template × CallLog :=
  let (t, log) :=
    if id = rootId ∧ t.state.rootRendered = false then (t.renderAt e id log).2 else (t, log)
  (finish e (t.state.output id), t, log)

def output (e : Engine) (t : Template) (block : Text) (log : CallLog) :
    Except Fault Text × Template × CallLog :=
  match t.tree.lookup block with
  | .error fault => (.error fault, t, log)
  | .ok id =>
    let (text, t, log) := t.outputAt e id log
    (.ok text, t, log)

def takeOutput (e : Engine) (t : Template) (block : Text) (log : CallLog) :
    Except Fault Text × Template × CallLog :=
  match t.tree.lookup block with
  | .error fault => (.error fault, t, log)
  | .ok id =>
    let (text, t, log) := t.outputAt e id log
    (.ok text, { t with state := t.state.clearOutput id }, log)

def writeOutput (e : Engine) (t : Template) (block : Text) (sink : Sink) (log : CallLog) :
    Except Fault Sink × Template × CallLog :=
  match t.output e block log with
  | (.error fault, rest) => (.error fault, rest)
  | (.ok text, rest) =>
    match sink.write? text with
    | some sink => (.ok sink, rest)
    | none => (.error .brokenOutput, rest)

def renderWith (e : Engine) (t : Template) (block : Text) (v : Value) (log : CallLog) :
    Except Fault Text × Template × CallLog :=
  match t.setVariables v with
  | (.error fault, t) => (.error fault, t, log)
  | (.ok (), t) =>
    match t.render e block log with
    | (.error fault, t, log) => (.error fault, t, log)
    | (.ok _, t, log) => t.takeOutput e block log

end Template

end BlockTemplate
