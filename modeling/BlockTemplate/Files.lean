import BlockTemplate.Dict
import BlockTemplate.Fault
import BlockTemplate.Text.Utf8

/-!
# Files

A file system in memory: directories and files by path, each with the time of its last change. Paths
are walked one component at a time, from the root directory if they begin with a slash and from the
working directory if not.
-/

namespace BlockTemplate

structure Stamp where
  seconds : Int
  nanos : Nat
  deriving Repr, DecidableEq

inductive Content where
  | directory
  | file (bytes : List UInt8)
  deriving Repr, DecidableEq

structure Node where
  content : Content
  stamp : Option Stamp
  deriving Repr, DecidableEq

abbrev Place := List Text

namespace Path

/-- Where paths start that do not begin with a slash. The name is arbitrary. -/
def workingDirectory : Place := ["work".toList]

def start (path : Text) : Place := if path.head? = some '/' then [] else workingDirectory

/-- The path of a name below a directory. A name that begins with a slash stands alone. -/
def join (dir name : Text) : Text :=
  if name.head? = some '/' then name
  else if dir = [] ∨ dir.getLast? = some '/' then dir ++ name
  else dir ++ '/' :: name

def maxName : Nat := 255

end Path

/-- What becomes of a file that is to be saved. -/
inductive Fate where
  | saved
  | refused
  /-- it is put in place at this time, and then cannot be given another -/
  | unstamped (now : Stamp)
  deriving Repr, DecidableEq

structure Files where
  nodes : Dict Place Node
  /-- what becomes of the next saves; later ones succeed -/
  fates : List Fate
  deriving DecidableEq

namespace Files

def empty : Files :=
  ⟨Dict.insert (Dict.insert ∅ [] ⟨.directory, none⟩) Path.workingDirectory ⟨.directory, none⟩, []⟩

def at? (fs : Files) (place : Place) : Option Node := fs.nodes.get? place

def isDirectoryAt (fs : Files) (place : Place) : Bool :=
  (fs.at? place).any (·.content = .directory)

def walk (fs : Files) : Place → List Text → Except ReadFailure Place
  | here, [] => .ok here
  | here, c :: rest =>
    if fs.isDirectoryAt here = false then .error .notDirectory
    else if c = [] ∨ c = ['.'] then walk fs here rest
    else if c = ['.', '.'] then walk fs here.dropLast rest
    else if Path.maxName < Text.size c then .error .nameTooLong
    else
      let next := here ++ [c]
      if (fs.at? next).isNone then .error .notFound else walk fs next rest

def locate (fs : Files) (path : Text) : Except ReadFailure Place :=
  if path.contains '\x00' then .error .nulInName
  else if path = [] then .error .notFound
  else fs.walk (Path.start path) (Text.splitOn '/' path)

def node? (fs : Files) (path : Text) : Option Node := (fs.locate path).toOption.bind fs.at?

def isDirectory (fs : Files) (path : Text) : Bool := (fs.node? path).any (·.content = .directory)

def bytes (fs : Files) (path : Text) : Except ReadFailure (List UInt8) :=
  match fs.locate path with
  | .error why => .error why
  | .ok place =>
    match fs.at? place with
    | none => .error .notFound
    | some ⟨.directory, _⟩ => .error .isDirectory
    | some ⟨.file bytes, _⟩ => .ok bytes

def read (fs : Files) (path : Text) : Except ReadFailure Text :=
  match fs.bytes path with
  | .error why => .error why
  | .ok bytes =>
    match Text.ofUtf8? bytes with
    | some t => .ok t
    | none => .error .undecodable

theorem read_eq_ok_iff {fs : Files} {path t : Text} :
    fs.read path = .ok t ↔ fs.bytes path = .ok (Text.utf8 t) := by
  cases hb : fs.bytes path with
  | error why => simp [read, hb]
  | ok bytes =>
    rw [Except.ok.injEq, ← Text.ofUtf8?_eq_some_iff]
    cases ht : Text.ofUtf8? bytes <;> simp [read, hb, ht]

def modified (fs : Files) (path : Text) : Option Stamp := (fs.node? path).bind (·.stamp)

def put (fs : Files) (place : Place) (n : Node) : Files :=
  { fs with nodes := fs.nodes.insert place n }

/-- Where a file of a directory can be saved: the directory exists, and no directory has the name. -/
def target? (fs : Files) (dir name : Text) : Option Place :=
  match fs.locate dir with
  | .error _ => none
  | .ok place =>
    let target := place ++ [name]
    if fs.isDirectoryAt place = false ∨ name.contains '\x00' = true ∨
        Path.maxName < Text.size name ∨ fs.isDirectoryAt target = true then
      none
    else some target

/--
Saves a file in a directory with a stamp, and tells whether all went well. The file is put in place
with the time of that moment and stamped there.
-/
def save (fs : Files) (dir name : Text) (bytes : List UInt8) (stamp : Option Stamp) :
    Bool × Files :=
  let rest := { fs with fates := fs.fates.tail }
  match fs.target? dir name with
  | none => (false, rest)
  | some target =>
    match fs.fates.headD .saved with
    | .saved => (true, rest.put target ⟨.file bytes, stamp⟩)
    | .refused => (false, rest)
    | .unstamped now => (stamp.isNone, rest.put target ⟨.file bytes, some now⟩)

def makeAll (fs : Files) : Place → List Text → Place × Files
  | here, [] => (here, fs)
  | here, c :: rest =>
    if c = [] ∨ c = ['.'] then makeAll fs here rest
    else if c = ['.', '.'] then makeAll fs here.dropLast rest
    else
      let next := here ++ [c]
      if (fs.at? next).isSome then makeAll fs next rest
      else makeAll (fs.put next ⟨.directory, none⟩) next rest

def makeDirectory (fs : Files) (path : Text) : Files :=
  (fs.makeAll (Path.start path) (Text.splitOn '/' path)).2

def write (fs : Files) (path : Text) (bytes : List UInt8) (stamp : Stamp) : Files :=
  let parts := Text.splitOn '/' path
  let (dir, fs) := fs.makeAll (Path.start path) parts.dropLast
  fs.put (dir ++ [parts.getLastD []]) ⟨.file bytes, some stamp⟩

def touch (fs : Files) (path : Text) (stamp : Stamp) : Files :=
  match fs.locate path with
  | .error _ => fs
  | .ok place =>
    match fs.at? place with
    | none => fs
    | some n => fs.put place { n with stamp := some stamp }

def remove (fs : Files) (path : Text) : Files :=
  match fs.locate path with
  | .error _ => fs
  | .ok place =>
    (fs.nodes.keys.filter (place.isPrefixOf ·)).foldl
      (fun fs p => { fs with nodes := fs.nodes.erase p }) fs

def list? (fs : Files) (path : Text) : Option (List Text) :=
  match fs.locate path with
  | .error _ => none
  | .ok place =>
    if fs.isDirectoryAt place then
      some (fs.nodes.keys.filterMap fun p =>
        match place.isPrefixOf? p with
        | some [name] => some name
        | _ => none)
    else none

end Files

end BlockTemplate
