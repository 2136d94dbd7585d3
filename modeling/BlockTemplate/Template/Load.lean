import BlockTemplate.Engine
import BlockTemplate.Snapshot.Json
import BlockTemplate.Template.Edit

/-!
# Loading files

A file is compiled, or restored from its saved snapshot while the times of both files are equal, and
attached. Then each of its inclusions is loaded into a block of its own and dissolved into the block
around it. If compiled files are kept, the snapshot is saved last. A snapshot that cannot be saved
is reported only if nothing else goes wrong, and leaves the template loaded.
-/

namespace BlockTemplate

abbrev Loaded := Except Fault Unit × Template × Files

structure Prepared where
  fragment : Fragment
  inclusions : List Inclusion
  /-- whether the blocks come from source and not from a snapshot -/
  fromSource : Bool

namespace Engine

def cachedName (file : Text) : Text :=
  Text.replaceAll ['/'] ['_', '_'] file ++ ".it".toList

/-- Whether the snapshot was taken of the file as it is now: both changed at the same time. -/
def isCurrent (fs : Files) (path cached : Text) : Bool :=
  match fs.modified path, fs.modified cached with
  | some s, some c => s == c
  | _, _ => false

def savedSnapshot? (e : Engine) (fs : Files) (file : Text) : Option Snapshot := do
  let cached := Path.join (← e.cacheDir) (cachedName file)
  if isCurrent fs (e.path file) cached then
    let bytes ← (fs.bytes cached).toOption
    Snapshot.ofBytes? bytes
  else none

end Engine

namespace Template

def prepareText (e : Engine) (t : Template) (top : Text) (replaced : Option BlockId) (text : Text) :
    Except Fault Prepared × Template :=
  let (source, inclusions) := Inclusion.extract e.dialect t.nextInclusion text
  let t := { t with nextInclusion := t.nextInclusion + inclusions.length }
  match Fragment.compile e.dialect t.tree top source replaced with
  | (.error fault, calls) => (.error fault, t.withCalls calls)
  | (.ok f, calls) => (.ok ⟨f, inclusions, true⟩, t.withCalls calls)

def prepareFile (e : Engine) (t : Template) (fs : Files) (file top : Text)
    (replaced : Option BlockId) : Except Fault Prepared × Template :=
  match fs.read (e.path file) with
  | .error why => (.error (.unreadable (e.path file) why), t)
  | .ok text => t.prepareText e top replaced text

def restore (e : Engine) (t : Template) (top : Text) (s : Snapshot) :
    Option (Fragment × List Inclusion) × Template :=
  let (r, calls) := s.restore e.dialect top t.tree.calls t.nextInclusion
  (r, { t.withCalls calls with nextInclusion := t.nextInclusion + s.inclusions.length })

def prepare (e : Engine) (t : Template) (fs : Files) (file top : Text)
    (replaced : Option BlockId) : Except Fault Prepared × Template :=
  match e.savedSnapshot? fs file with
  | none => t.prepareFile e fs file top replaced
  | some s =>
    match t.restore e top s with
    | (none, t) => t.prepareFile e fs file top replaced
    | (some (f, inclusions), t) =>
      match Fragment.checkNames t.tree (Fragment.leavingNames t.tree replaced) [] f with
      | .error fault => (.error fault, t)
      | .ok () => (.ok ⟨f, inclusions, false⟩, t)

def pull (d : Dialect) (load : Text → Text → Target → Template → Files → Loaded) (i : Inclusion)
    (t : Template) (fs : Files) : Loaded :=
  match t.tree.owner i.name with
  | .error fault => (.error fault, t, fs)
  | .ok parent =>
    let dissolve := fun (r : Except Fault Unit) (t : Template) (fs : Files) =>
      match t.tree.lookup i.name with
      | .error fault => (.error fault, t, fs)
      | .ok id =>
        (r, { t with tree := t.tree.dissolve id (d.token (childName i.name)) }, fs)
    match load i.path i.name (.under parent i.name) t fs with
    | (.ok (), t, fs) => dissolve (.ok ()) t fs
    | (.error fault, t, fs) =>
      if fault.isCacheWrite then dissolve (.error fault) t fs else (.error fault, t, fs)

/-- Loads inclusions in order. The first snapshot not saved, `unsaved`, is reported at the end. -/
def pullAll (d : Dialect) (load : Text → Text → Target → Template → Files → Loaded) :
    List Inclusion → (unsaved : Option Fault) → Template → Files → Loaded
  | [], none, t, fs => (.ok (), t, fs)
  | [], some fault, t, fs => (.error fault, t, fs)
  | i :: rest, unsaved, t, fs =>
    match pull d load i t fs with
    | (.ok (), t, fs) => pullAll d load rest unsaved t fs
    | (.error fault, t, fs) =>
      if fault.isCacheWrite then pullAll d load rest (unsaved.or (some fault)) t fs
      else (.error fault, t, fs)

def saveSnapshot (e : Engine) (file : Text) (s : Snapshot) (fs : Files) :
    Except Fault Unit × Files :=
  match e.cacheDir with
  | none => (.ok (), fs)
  | some dir =>
    let name := Engine.cachedName file
    match fs.save dir name s.toBytes (fs.modified (e.path file)) with
    | (true, fs) => (.ok (), fs)
    | (false, fs) => (.error (.cacheWrite (Path.join dir name)), fs)

def finishLoad (e : Engine) (file : Text) (snapshot : Option Snapshot) : Loaded → Loaded
  | (.error fault, t, fs) =>
    if fault.isCacheWrite then
      match snapshot with
      | none => (.error fault, t, fs)
      | some s =>
        match saveSnapshot e file s fs with
        | (.ok (), fs) => (.error fault, t, fs)
        | (.error fault, fs) => (.error fault, t, fs)
    else (.error fault, t, fs)
  | (.ok (), t, fs) =>
    match snapshot with
    | none => (.ok (), t, fs)
    | some s =>
      let (r, fs) := saveSnapshot e file s fs
      (r, t, fs)

/-- Loads a file as the block `top`, if that many files may still lie within each other. -/
def load (e : Engine) :
    (allowed : Nat) → (file top : Text) → Target → Template → Files → Loaded
  | 0, _, _, _, t, fs => (.error (.includeDepth e.maxDepth), t, fs)
  | allowed + 1, file, top, target, t, fs =>
    match t.prepare e fs file top target.replaced with
    | (.error fault, t) => (.error fault, t, fs)
    | (.ok p, t) =>
      let (id, t) := t.attach e.dialect p.fragment target
      let snapshot :=
        if p.fromSource && e.cacheDir.isSome then
          some (Snapshot.take t.tree id p.inclusions e.options.trimOnSave)
        else none
      finishLoad e file snapshot
        (pullAll e.dialect (load e allowed) p.inclusions none t fs)

def loadTop (e : Engine) (file top : Text) (target : Target) (t : Template) (fs : Files) : Loaded :=
  load e (e.maxDepth + 1) file top target t fs

/--
Makes a file the whole template. A fault changes nothing, other than a snapshot that could not be
saved, after which the template is loaded all the same.
-/
def loadFile (e : Engine) (t : Template) (file : Text) (fs : Files) : Loaded :=
  let blank : Template := { t with tree := .empty, state := {}, nextInclusion := 0 }
  match loadTop e file rootName (.over rootId false) blank fs with
  | (.ok (), loaded, fs) => (.ok (), { loaded with state := t.state, current := rootId }.renew, fs)
  | (.error fault, loaded, fs) =>
    if fault.isCacheWrite then
      (.error fault, { loaded with state := t.state, current := rootId }.renew, fs)
    else (.error fault, t, fs)

def addBlockFile (e : Engine) (t : Template) (placeholder block file : Text) (fs : Files) :
    Loaded :=
  match t.placeFor placeholder block with
  | .error fault => (.error fault, t, fs)
  | .ok parent => loadTop e file block (.under parent placeholder) t fs

def replaceBlockFile (e : Engine) (t : Template) (block file : Text) (keepOutput : Bool)
    (fs : Files) : Loaded :=
  match t.tree.lookup block with
  | .error fault => (.error fault, t, fs)
  | .ok id => loadTop e file block (.over id keepOutput) t fs

end Template

end BlockTemplate
