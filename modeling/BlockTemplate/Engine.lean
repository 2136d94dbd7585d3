import BlockTemplate.Callback
import BlockTemplate.Dialect
import BlockTemplate.Escape.Html
import BlockTemplate.Escape.Script
import BlockTemplate.Escape.Url
import BlockTemplate.Files
import BlockTemplate.Text.Blank

/-!
# Engines

An engine holds what its templates have in common: the dialect, the callbacks, the options, and
where files are found and compiled files are kept.
-/

namespace BlockTemplate

structure Options where
  /-- whether placeholders without a value are removed from output -/
  removeUnknown : Bool := true
  /-- whether blocks that no local variable went into are left out -/
  removeEmpty : Bool := true
  /-- whether delimiters in values are kept from being read as placeholders -/
  preserveData : Bool := false
  /-- whether the lines of content are trimmed in saved files -/
  trimOnSave : Bool := true
  deriving Repr, DecidableEq

namespace Options

def set? (o : Options) (name : Text) (value : Bool) : Option Options :=
  if name = "remove_unknown_variables".toList then some { o with removeUnknown := value }
  else if name = "remove_empty_blocks".toList then some { o with removeEmpty := value }
  else if name = "preserve_data".toList then some { o with preserveData := value }
  else if name = "trim_on_save".toList then some { o with trimOnSave := value }
  else none

end Options

structure Engine where
  dialect : Dialect
  callbacks : Dict Text Callback
  options : Options
  /-- the directory that names of template files start from -/
  root : Text
  /-- the directory for compiled files, if they are kept -/
  cacheDir : Option Text
  /-- how many inclusions may lie within each other -/
  maxDepth : Nat

namespace Engine

def builtins : Dict Text Callback :=
  Dict.ofList
    [(['h'], .unary Escape.html), (['e'], .unary Escape.htmlAscii), (['u'], .unary Escape.urlQuery),
      (['r'], .unary Escape.urlPath), (['j'], .unary Escape.script)]

def new (d : Dialect) : Engine := ⟨d, builtins, {}, [], none, 64⟩

def standard : Engine := new .standard

def setOption (e : Engine) (name : Text) (value : Bool) : Except Fault Engine :=
  match e.options.set? name value with
  | some o => .ok { e with options := o }
  | none => .error (.unknownOption name)

def setCacheDir (e : Engine) (fs : Files) (dir : Text) : Except Fault Engine :=
  if fs.isDirectory dir then .ok { e with cacheDir := some dir } else .error (.badCacheDir dir)

def register (e : Engine) (name : Text) (c : Callback) : Except Fault Engine :=
  if Text.isFunctionName name then .ok { e with callbacks := e.callbacks.insert name c }
  else .error (.invalidCallback name)

def Pure (e : Engine) : Prop := ∀ name c, e.callbacks.get? name = some c → c.Pure

def path (e : Engine) (file : Text) : Text := Path.join e.root file

end Engine

end BlockTemplate
