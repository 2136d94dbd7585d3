import BlockTemplate.Template.Edit
import BlockTemplate.Proofs.Text.Cut

/-!
# Documents

A document is what an author means: texts, placeholders, calls, comments and blocks within each
other. It is printed as template source in the standard dialect. Comments mean nothing and texts
next to each other are one text, so a document means a page: items with the text before each and the
text behind the last.
-/

namespace BlockTemplate

/-- A sequence of nodes of template source. -/
inductive Document where
  | nil
  | text (t : Text) (rest : Document)
  | placeholder (name : Text) (rest : Document)
  | filtered (name filter : Text) (rest : Document)
  | call (name : Text) (args : List Text) (rest : Document)
  | comment (body : Text) (rest : Document)
  | block (name : Text) (body rest : Document)
  deriving Repr, DecidableEq

/-- A document without comments, each item behind a text. -/
inductive Page where
  | last (t : Text)
  | placeholder (t name : Text) (rest : Page)
  | filtered (t name filter : Text) (rest : Page)
  | call (t name : Text) (args : List Text) (rest : Page)
  | block (t name : Text) (body rest : Page)
  deriving Repr, DecidableEq

namespace Markup

def token (name : Text) : Text := Dialect.standard.token name

def filter (name f : Text) : Text := '\x7b' :: (name ++ ':' :: (f ++ ['\x7d']))

def escape (t : Text) : Text := t.flatMap fun c => if c = '\\' ∨ c = '\'' then ['\\', c] else [c]

def quote (t : Text) : Text := '\'' :: (escape t ++ ['\''])

def arguments (args : List Text) : Text := Text.join [','] (args.map quote)

def call (name : Text) (args : List Text) : Text :=
  "func_".toList ++ (name ++ '(' :: (arguments args ++ [')']))

def opens (name : Text) : Text := Tag.opening ++ (" BEGIN ".toList ++ (name ++ " -->".toList))

def closes (name : Text) : Text := Tag.opening ++ (" END ".toList ++ (name ++ " -->".toList))

def endComment : Text := Tag.opening ++ " /COMMENT -->".toList

def comment (body : Text) : Text :=
  Tag.opening ++ (" COMMENT -->".toList ++ (body ++ endComment))

end Markup

namespace Document

def print : Document → Text
  | .nil => []
  | .text t rest => t ++ rest.print
  | .placeholder name rest => Markup.token name ++ rest.print
  | .filtered name f rest => Markup.filter name f ++ rest.print
  | .call name args rest => Markup.call name args ++ rest.print
  | .comment body rest => Markup.comment body ++ rest.print
  | .block name body rest =>
    Markup.opens name ++ (body.print ++ (Markup.closes name ++ rest.print))

/-- The page of a document behind a text, its comments dropped and its texts merged. -/
def page : (before : Text) → Document → Page
  | t, .nil => .last t
  | t, .text u rest => rest.page (t ++ u)
  | t, .placeholder name rest => .placeholder t name (rest.page [])
  | t, .filtered name f rest => .filtered t name f (rest.page [])
  | t, .call name args rest => .call t name args (rest.page [])
  | t, .comment _ rest => rest.page t
  | t, .block name body rest => .block t name (body.page []) (rest.page [])

/-- The names of the blocks, in the order in which the blocks end. -/
def names : Document → List Text
  | .nil => []
  | .text _ rest => rest.names
  | .placeholder _ rest => rest.names
  | .filtered _ _ rest => rest.names
  | .call _ _ rest => rest.names
  | .comment _ rest => rest.names
  | .block name body rest => body.names ++ name :: rest.names

def closesComment (t : Text) : Bool :=
  match (Text.expect Tag.opening t).bind Tag.read with
  | some (.endComment, _) => true
  | _ => false

def commentsEnd : Document → Bool
  | .nil => true
  | .text _ rest => rest.commentsEnd
  | .placeholder _ rest => rest.commentsEnd
  | .filtered _ _ rest => rest.commentsEnd
  | .call _ _ rest => rest.commentsEnd
  | .comment body rest => body.tails.all (!closesComment ·) && rest.commentsEnd
  | .block _ body rest => body.commentsEnd && rest.commentsEnd

end Document

namespace Page

def print : Page → Text
  | .last t => t
  | .placeholder t name rest => t ++ (Markup.token name ++ rest.print)
  | .filtered t name f rest => t ++ (Markup.filter name f ++ rest.print)
  | .call t name args rest => t ++ (Markup.call name args ++ rest.print)
  | .block t name body rest =>
    t ++ (Markup.opens name ++ (body.print ++ (Markup.closes name ++ rest.print)))

def names : Page → List Text
  | .last _ => []
  | .placeholder _ _ rest => rest.names
  | .filtered _ _ _ rest => rest.names
  | .call _ _ _ rest => rest.names
  | .block _ name body rest => body.names ++ name :: rest.names

def childNames : Page → List Text
  | .last _ => []
  | .placeholder _ _ rest => rest.childNames
  | .filtered _ _ _ rest => rest.childNames
  | .call _ _ _ rest => rest.childNames
  | .block _ name _ rest => name :: rest.childNames

def argumentNames (arg : Text) : List Text := (Dialect.standard.names arg).filterMap Piece.value?

def variableNames : Page → List Text
  | .last _ => []
  | .placeholder _ name rest => name :: rest.variableNames
  | .filtered _ name _ rest => name :: rest.variableNames
  | .call _ _ args rest => args.flatMap argumentNames ++ rest.variableNames
  | .block _ _ _ rest => rest.variableNames

def filters : Page → List Call
  | .last _ => []
  | .placeholder _ _ rest => rest.filters
  | .filtered _ name f rest => ⟨f, [Markup.token name]⟩ :: rest.filters
  | .call _ _ _ rest => rest.filters
  | .block _ _ _ rest => rest.filters

def inlineCalls : Page → List Call
  | .last _ => []
  | .placeholder _ _ rest => rest.inlineCalls
  | .filtered _ _ _ rest => rest.inlineCalls
  | .call _ name args rest => ⟨name, args⟩ :: rest.inlineCalls
  | .block _ _ _ rest => rest.inlineCalls

/-- The calls of the page outside its blocks, those of filters first. -/
def calls (p : Page) : List Call := p.filters ++ p.inlineCalls

def innerCalls : Page → List Call
  | .last _ => []
  | .placeholder _ _ rest => rest.innerCalls
  | .filtered _ _ _ rest => rest.innerCalls
  | .call _ _ _ rest => rest.innerCalls
  | .block _ _ body rest => body.innerCalls ++ (body.calls ++ rest.innerCalls)

def distinctCalls (p : Page) : List Call := (p.calls ++ p.innerCalls).foldl addNew []

def number (p : Page) (c : Call) : CallId := (p.distinctCalls.idxOf? c).getD 0

def content (number : Call → CallId) : Page → Text
  | .last t => t
  | .placeholder t name rest => t ++ (Markup.token name ++ rest.content number)
  | .filtered t name f rest =>
    t ++ (Markup.token (CallId.memo (number ⟨f, [Markup.token name]⟩)) ++ rest.content number)
  | .call t name args rest =>
    t ++ (Markup.token (CallId.memo (number ⟨name, args⟩)) ++ rest.content number)
  | .block t name _ rest => t ++ (Markup.token (childName name) ++ rest.content number)

/-- A text that no scan finds anything in. -/
def plainText (t : Text) : Bool :=
  !t.contains '\x7b' && !decide (Tag.opening <:+: t) && !decide ("func_".toList <:+: t)

/-- Whether a placeholder without a filter follows each opening brace, and no tag begins. -/
def plainArgument (t : Text) : Bool :=
  !decide (Tag.opening <:+: t) && t.tails.all fun s =>
    match s with
    | '\x7b' :: s => (Placeholder.readName .standard s).isSome
    | _ => true

def isVariableName (name : Text) : Bool := name ≠ [] && name.all Text.isVariableChar

def isBlockName (name : Text) : Bool := name ≠ [] && name.all Text.isBlockChar

/-- Whether names are names, and texts and arguments are plain. -/
def clean : Page → Bool
  | .last t => plainText t
  | .placeholder t name rest => plainText t && isVariableName name && rest.clean
  | .filtered t name f rest =>
    plainText t && isVariableName name && Text.isFunctionName f && rest.clean
  | .call t name args rest =>
    plainText t && Text.isFunctionName name && args.all plainArgument && rest.clean
  | .block t name body rest => plainText t && isBlockName name && body.clean && rest.clean

/-- Whether no variable outside the blocks has the name of another placeholder. -/
def unreserved (p : Page) : Bool := p.variableNames.all fun name => !Listing.reserved p.childNames name

def unreservedWithin : Page → Bool
  | .last _ => true
  | .placeholder _ _ rest => rest.unreservedWithin
  | .filtered _ _ _ rest => rest.unreservedWithin
  | .call _ _ _ rest => rest.unreservedWithin
  | .block _ _ body rest => body.unreserved && body.unreservedWithin && rest.unreservedWithin

structure Plain (p : Page) : Prop where
  clean : p.clean = true
  unreserved : p.unreserved = true
  within : p.unreservedWithin = true

end Page

/-- A document whose markup says what it means. -/
structure Document.Plain (d : Document) : Prop where
  page : (d.page []).Plain
  comments : d.commentsEnd = true

end BlockTemplate
