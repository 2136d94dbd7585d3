import BlockTemplate.Proofs.Files.Kept
import BlockTemplate.Proofs.Json.RoundTrip

/-!
# Snapshots read back

The bytes that a snapshot is saved as hold this snapshot and no other, so what was saved in the
directory of compiled files is found there as it was.
-/

namespace BlockTemplate

namespace Json

variable {α : Type} {f : Json → Option α} {g : α → Json}

theorem textual_ofFields {fields : List (Text × Json)} (h : ∀ e ∈ fields, Textual e.2) :
    Textual (.ofFields fields) := by
  refine .object ?_ ?_ <;> intro e he <;> obtain ⟨e', he', rfl⟩ := List.mem_map.mp he
  · rfl
  · exact h e' he'

theorem textual_map {xs : List α} (h : ∀ x, Textual (g x)) : Textual (.array (xs.map g)) := by
  refine .array fun j hj => ?_
  obtain ⟨x, -, rfl⟩ := List.mem_map.mp hj
  exact h x

theorem mapM_map {β : Type} {f : β → Option α} {g : α → β} (h : ∀ x, f (g x) = some x)
    (xs : List α) : (xs.map g).mapM f = some xs := by
  induction xs with
  | nil => rfl
  | cons x xs ih => simp [h, ih]

theorem listOf?_map (h : ∀ x, f (g x) = some x) (xs : List α) :
    listOf? f (.array (xs.map g)) = some xs := mapM_map h xs

theorem text?_ofText (t : Text) : text? (.ofText t) = some t := rfl

theorem entriesOf?_ofFields (h : ∀ x, f (g x) = some x) (entries : List (Text × α)) :
    entriesOf? f (.ofFields (entries.map fun e => (e.1, g e.2))) = some entries := by
  rw [ofFields, List.map_map]
  exact mapM_map (by simp [h]) entries

end Json

open Json (Textual)

theorem Call.ofJson?_toJson (c : Call) : ofJson? c.toJson = some c := by
  have hargs := Json.listOf?_map Json.text?_ofText c.args
  have hrecord : c.toJson.record? ["name".toList, "args".toList] =
      some [some (.ofText c.name), some (.array (c.args.map Json.ofText))] := rfl
  rw [ofJson?, hrecord]
  simp [hargs, Json.text?_ofText]

theorem Inclusion.ofJson?_toJson (i : Inclusion) : ofJson? i.toJson = some i := rfl

namespace Snapshot

variable {α : Type} {f : Json → Option α} {g : α → Json}

theorem dictOf?_dictJson (h : ∀ x, f (g x) = some x) (d : Dict Text α) :
    dictOf? f (dictJson g d) = some d := by
  rw [dictOf?, dictJson, Json.entriesOf?_ofFields h, Option.map_some, Dict.ofList_entries]

theorem textual_dictJson (h : ∀ x, Textual (g x)) (d : Dict Text α) : Textual (dictJson g d) := by
  refine Json.textual_ofFields fun e he => ?_
  obtain ⟨e', -, rfl⟩ := List.mem_map.mp he
  exact h e'.2

theorem textual_call (c : Call) : Textual c.toJson := by
  refine Json.textual_ofFields ?_
  rintro e (_ | ⟨_, _ | ⟨_, ⟨⟩⟩⟩)
  · exact .string c.name
  · exact Json.textual_map .string

theorem textual_inclusion (i : Inclusion) : Textual i.toJson := by
  refine Json.textual_ofFields ?_
  rintro e (_ | ⟨_, _ | ⟨_, ⟨⟩⟩⟩)
  · exact .string i.name
  · exact .string i.path

theorem textual_toJson (s : Snapshot) : Textual s.toJson := by
  have htexts : ∀ ts, Textual (textsJson ts) := fun _ => Json.textual_map .string
  refine Json.textual_ofFields fun e he => ?_
  rcases List.mem_append.mp he with he | he
  · simp only [List.mem_cons, List.not_mem_nil, or_false] at he
    rcases he with rfl | rfl | rfl | rfl
    · exact textual_dictJson .string s.blocks
    · exact textual_dictJson htexts s.vars
    · exact textual_dictJson htexts s.children
    · exact textual_dictJson (textual_dictJson textual_call) s.functions
  · split at he
    · cases he
    · cases List.mem_singleton.mp he
      exact Json.textual_map textual_inclusion

theorem record?_toJson (s : Snapshot) :
    s.toJson.record? ["blocks".toList, "variables".toList, "children".toList,
      "functions".toList, "triggers".toList] =
    some [some (dictJson Json.ofText s.blocks), some (dictJson textsJson s.vars),
      some (dictJson textsJson s.children), some (dictJson (dictJson Call.toJson) s.functions),
      if s.inclusions = [] then none else some (.array (s.inclusions.map Inclusion.toJson))] := by
  by_cases hi : s.inclusions = []
  · rw [toJson, if_pos hi, if_pos hi]
    rfl
  · rw [toJson, if_neg hi, if_neg hi]
    rfl

theorem ofJson?_toJson (s : Snapshot) : ofJson? s.toJson = some s := by
  have htexts : ∀ ts, (textsJson ts).listOf? Json.text? = some ts :=
    Json.listOf?_map Json.text?_ofText
  have hblocks := dictOf?_dictJson Json.text?_ofText s.blocks
  have hvars := dictOf?_dictJson htexts s.vars
  have hchildren := dictOf?_dictJson htexts s.children
  have hfunctions := dictOf?_dictJson (dictOf?_dictJson Call.ofJson?_toJson) s.functions
  have hinclusions := Json.listOf?_map Inclusion.ofJson?_toJson s.inclusions
  rw [ofJson?]
  dsimp only
  rw [record?_toJson]
  by_cases hi : s.inclusions = []
  · simp only [Option.bind_eq_bind, Option.bind_some, if_pos hi, hblocks, hvars, hchildren,
      hfunctions]
    rw [← hi]
    rfl
  · simp only [Option.bind_eq_bind, Option.bind_some, if_neg hi, hblocks, hvars, hchildren,
      hfunctions, hinclusions]
    rfl

theorem ofBytes?_toBytes (s : Snapshot) : ofBytes? s.toBytes = some s := by
  rw [ofBytes?, toBytes, Json.read?_render (textual_toJson s), Option.bind_some, ofJson?_toJson]

example : ofBytes? (Text.utf8 ("\x7b\"blocks\":\x7b\"__global__\":\"a\\\"b\"\x7d," ++
      "\"variables\":\x7b\x7d,\"children\":\x7b\x7d,\"functions\":\x7b\x7d\x7d").toList) =
    some ⟨Dict.ofList [(rootName, "a\"b".toList)], ∅, ∅, ∅, []⟩ := by
  decide +kernel

theorem bytes_saveSnapshot {e : Engine} {dir file : Text} {s : Snapshot} {fs fs' : Files}
    (hdir : e.cacheDir = some dir) (h : Template.saveSnapshot e file s fs = (.ok (), fs')) :
    fs'.bytes (Path.join dir (Engine.cachedName file)) = .ok s.toBytes := by
  obtain ⟨hfiles, hdone⟩ := Template.saveSnapshot_eq hdir file s fs
  rw [h] at hfiles hdone
  obtain ⟨stamp, hnode, -⟩ := Files.node?_save (Engine.plain_cachedName file) hdone.symm
  rw [← hfiles] at hnode
  exact Files.bytes_eq_ok_iff.mpr ⟨stamp, hnode⟩

/-- A snapshot is read from the bytes that it is saved as, and from the file they are saved in. -/
theorem roundtrip (s : Snapshot) :
    ofBytes? s.toBytes = some s ∧
      ∀ (e : Engine) (dir file : Text) (fs fs' : Files), e.cacheDir = some dir →
        Template.saveSnapshot e file s fs = (.ok (), fs') →
        (fs'.bytes (Path.join dir (Engine.cachedName file))).toOption.bind ofBytes? = some s := by
  refine ⟨ofBytes?_toBytes s, fun e dir file fs fs' hdir hsave => ?_⟩
  rw [bytes_saveSnapshot hdir hsave, Except.toOption, Option.bind_some, ofBytes?_toBytes]

private def escapes : Snapshot where
  blocks := Dict.ofList [(rootName, "\x7bx\x7d \"a\\b\" \n\x01é".toList), (['ß'], [])]
  vars := Dict.ofList [(rootName, [['x']]), (['ß'], [])]
  children := Dict.ofList [(rootName, [['ß']]), (['ß'], [])]
  functions := Dict.ofList
    [(rootName, Dict.ofList [("__function_0__".toList, ⟨['h'], [['"'], []]⟩)]), (['ß'], ∅)]
  inclusions := []

theorem roundtrip_escapes :
    let saved := Template.saveSnapshot .caching "page.html".toList escapes Files.page
    saved.1.toBool = true ∧
      (saved.2.bytes "cache/page.html.it".toList).toOption.bind ofBytes? = some escapes := by
  intro saved
  have hdone : saved.1.toBool = true := by decide +kernel
  have hsaved : Template.saveSnapshot .caching "page.html".toList escapes Files.page =
      (.ok (), saved.2) := by
    refine Prod.ext ?_ rfl
    change saved.1 = .ok ()
    cases h : saved.1 with
    | ok _ => rfl
    | error _ => rw [h] at hdone; cases hdone
  exact ⟨hdone, (roundtrip escapes).2 .caching "cache".toList "page.html".toList Files.page saved.2
    rfl hsaved⟩

end Snapshot

end BlockTemplate
