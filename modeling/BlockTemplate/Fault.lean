import BlockTemplate.Call.Arguments
import BlockTemplate.Text.Width

/-!
# Faults

What can go wrong, as causes. The wording is in `Fault.message`; a faulty call also has a place in
the content of its block, shown by `Fault.pretty` with the line and carets under the call.
-/

namespace BlockTemplate

inductive ReadFailure where
  | notFound
  | notDirectory
  | isDirectory
  | nameTooLong
  | nulInName
  | undecodable
  deriving Repr, DecidableEq

inductive ValueFault where
  | nameless
  | badKey
  | keyless
  | wide (signed : Bool)
  | custom (text : Text)
  deriving Repr, DecidableEq

/--
The place of a faulty call: the content that has it, and the bytes from the first of the call to
behind the last that was read.
-/
structure CallSite where
  source : Text
  span : Nat × Nat
  deriving Repr, DecidableEq

inductive Fault where
  | duplicateBlock (name : Text)
  | blockNotFound (name : Text)
  | blockExists (name : Text)
  | placeholderNotFound (name : Text)
  | placeholderShared (name : Text)
  | callSyntax (why : CallFault) (site : CallSite)
  | unknownOption (name : Text)
  | invalidCallback (name : Text)
  | cacheWrite (path : Text)
  | unreadable (path : Text) (why : ReadFailure)
  | badCacheDir (path : Text)
  | includeDepth (limit : Nat)
  | value (why : ValueFault)
  | brokenOutput
  deriving Repr, DecidableEq

namespace ReadFailure

def message : ReadFailure → Text
  | .notFound => "No such file or directory (os error 2)".toList
  | .notDirectory => "Not a directory (os error 20)".toList
  | .isDirectory => "Is a directory (os error 21)".toList
  | .nameTooLong => "File name too long (os error 36)".toList
  | .nulInName => "file name contained an unexpected NUL byte".toList
  | .undecodable => "stream did not contain valid UTF-8".toList

end ReadFailure

namespace ValueFault

def message : ValueFault → Text
  | .nameless => "expected a map, struct or sequence of variables".toList
  | .badKey => "map key must be a string, integer, char or bool".toList
  | .keyless => "serialize_value called before serialize_key".toList
  | .wide true => "i128 is not supported".toList
  | .wide false => "u128 is not supported".toList
  | .custom text => text

end ValueFault

namespace CallFault

def message : CallFault → Text
  | .unexpected c => "unexpected `".toList ++ [c] ++ "`".toList
  | .unexpectedAfterQuote c => "unexpected `".toList ++ [c] ++ "`, expected `)` or `,`".toList
  | .unexpectedEnd => "unexpected end of input".toList

end CallFault

namespace CallSite

/--
The number of the line with a byte, counted from zero, and the columns before the byte in it. It is
looked for among the lines `rest`, which `passed` lines with `start` bytes precede.
-/
def locate (width : Text → Nat) (lines : List Text) (offset : Nat) :
    (passed start : Nat) → (rest : List Text) → Option (Nat × Nat)
  | _, _, [] => some (lines.length - 1, (lines.getLast?.map width).getD 0)
  | passed, start, line :: rest =>
    if offset < start + (line.size + 1) then
      (line.cutAt? (offset - start)).map fun (indent, _) => (passed, width indent)
    else locate width lines offset (passed + 1) (start + (line.size + 1)) rest

def layout (number : Nat) (code : Text) (column carets : Nat) (message : Text) : Text :=
  let number := Text.decimal number
  let margin := List.replicate number.length ' '
  let marks := List.replicate column ' ' ++ List.replicate carets '^'
  "\n ".toList ++ margin ++ " |\n ".toList ++ number ++ " | ".toList ++ code ++ "\n ".toList ++
    margin ++ " | ".toList ++ marks ++ ' ' :: message ++ ['\n']

/--
The line with carets under the call; `width` measures texts in columns. Nothing can be shown where
an end of the call lies within a character.
-/
def display? (width : Text → Nat) (message : Text) (s : CallSite) : Option Text := do
  let lines := s.source.lines
  let (line, column) ← locate width lines s.span.1 0 0 lines
  let call ← s.source.slice? s.span
  let code := (lines[line]?.or lines.getLast?).getD []
  return layout (line + 1) code column (max 1 (width call)) message

end CallSite

namespace Fault

def quoted (before name after : Text) : Text := before ++ "`".toList ++ name ++ "`".toList ++ after

def message : Fault → Text
  | .duplicateBlock name =>
    quoted "the name of a block must be unique within a template, block ".toList name
      " found twice".toList
  | .blockNotFound name => quoted "cannot find block ".toList name []
  | .blockExists name => quoted "block ".toList name " already exists".toList
  | .placeholderNotFound name => quoted "variable placeholder ".toList name " not found".toList
  | .placeholderShared name =>
    quoted "placeholder ".toList name " should be unique, found in multiple blocks".toList
  | .callSyntax why site =>
    why.message ++ " between bytes ".toList ++ Text.decimal site.span.1 ++ " and ".toList ++
      Text.decimal site.span.2
  | .unknownOption name => quoted "unknown option ".toList name []
  | .invalidCallback name => quoted [] name " is not a valid callback name".toList
  | .cacheWrite path => quoted "cannot save template file ".toList path []
  | .unreadable path _ => quoted "cannot read the template file ".toList path []
  | .badCacheDir path =>
    quoted "cannot set cache directory to ".toList path ", it does not exist".toList
  | .includeDepth limit =>
    "reached maximum include depth (".toList ++ Text.decimal limit ++ [')']
  | .value why => why.message
  | .brokenOutput => "failed to write output".toList

def name? : Fault → Option Text
  | .duplicateBlock name | .blockNotFound name | .blockExists name | .placeholderNotFound name
  | .placeholderShared name | .unknownOption name | .invalidCallback name => some name
  | .cacheWrite path | .unreadable path _ | .badCacheDir path => some path
  | .callSyntax .. | .includeDepth _ | .value _ | .brokenOutput => none

def site? : Fault → Option CallSite
  | .callSyntax _ site => some site
  | _ => none

def pretty? : Fault → Option Text
  | .callSyntax why site => site.display? Text.width why.message
  | _ => none

def cause? : Fault → Option Text
  | .unreadable _ why => some why.message
  | .brokenOutput => some "broken pipe".toList
  | _ => none

def detail? (f : Fault) : Option Text := f.cause?.map fun cause => f.message ++ ": ".toList ++ cause

/-- Whether the fault is about saving a compiled file, which leaves the template loaded. -/
def isCacheWrite : Fault → Bool
  | .cacheWrite _ => true
  | _ => false

end Fault

end BlockTemplate
