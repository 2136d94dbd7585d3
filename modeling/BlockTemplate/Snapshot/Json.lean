import BlockTemplate.Json.Read
import BlockTemplate.Snapshot.Basic

/-!
# Snapshots in files

A snapshot is saved as compact JSON with its fields in a fixed order and its maps sorted by key.
Inclusions are left out if there are none. Reading takes records as objects or as arrays.
-/

namespace BlockTemplate

namespace Call

def toJson (c : Call) : Json :=
  .ofFields [("name".toList, .ofText c.name), ("args".toList, .array (c.args.map Json.ofText))]

def ofJson? (j : Json) : Option Call := do
  match ← j.record? ["name".toList, "args".toList] with
  | [some name, some args] => return ⟨← name.text?, ← args.listOf? Json.text?⟩
  | _ => none

end Call

namespace Inclusion

def toJson (i : Inclusion) : Json :=
  .ofFields [("name".toList, .ofText i.name), ("path".toList, .ofText i.path)]

def ofJson? (j : Json) : Option Inclusion := do
  match ← j.record? ["name".toList, "path".toList] with
  | [some name, some path] => return ⟨← name.text?, ← path.text?⟩
  | _ => none

end Inclusion

namespace Snapshot

def dictJson {α : Type} (f : α → Json) (d : Dict Text α) : Json :=
  .ofFields (d.entries.map fun e => (e.1, f e.2))

/-- The dictionary of an object; the last of repeated keys counts. -/
def dictOf? {α : Type} (f : Json → Option α) (j : Json) : Option (Dict Text α) :=
  (j.entriesOf? f).map Dict.ofList

def textsJson (ts : List Text) : Json := .array (ts.map Json.ofText)

def toJson (s : Snapshot) : Json :=
  .ofFields
    ([("blocks".toList, dictJson Json.ofText s.blocks),
      ("variables".toList, dictJson textsJson s.vars),
      ("children".toList, dictJson textsJson s.children),
      ("functions".toList, dictJson (dictJson Call.toJson) s.functions)] ++
      if s.inclusions = [] then []
      else [("triggers".toList, .array (s.inclusions.map Inclusion.toJson))])

def ofJson? (j : Json) : Option Snapshot := do
  let names :=
    ["blocks".toList, "variables".toList, "children".toList, "functions".toList, "triggers".toList]
  match ← j.record? names with
  | [some blocks, some vars, some children, some functions, inclusions] => do
    let blocks ← dictOf? Json.text? blocks
    let vars ← dictOf? (Json.listOf? Json.text?) vars
    let children ← dictOf? (Json.listOf? Json.text?) children
    let functions ← dictOf? (dictOf? Call.ofJson?) functions
    let inclusions ← match inclusions with
      | some j => j.listOf? Inclusion.ofJson?
      | none => some []
    return ⟨blocks, vars, children, functions, inclusions⟩
  | _ => none

def toBytes (s : Snapshot) : List UInt8 := Text.utf8 s.toJson.render

def ofBytes? (bytes : List UInt8) : Option Snapshot := (Json.read? bytes).bind ofJson?

end Snapshot

end BlockTemplate
