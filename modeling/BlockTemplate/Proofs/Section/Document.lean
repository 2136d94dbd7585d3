import BlockTemplate.Proofs.Document.Compile
import BlockTemplate.Proofs.Section.Basic

/-!
# The sections of a document

A document has a section of its own and one for each block in it. Comments leave no part in them and
texts next to each other need not be told apart, so sections follow the nodes of the document.
-/

namespace BlockTemplate

namespace Document

def parts : Document → List Part
  | .nil => []
  | .text t rest => t.map .char ++ rest.parts
  | .placeholder name rest => .var name :: rest.parts
  | .filtered name f rest => .result ⟨f, [Markup.token name]⟩ :: rest.parts
  | .call name args rest => .result ⟨name, args⟩ :: rest.parts
  | .comment _ rest => rest.parts
  | .block name _ rest => .child name :: rest.parts

def variableNames : Document → List Text
  | .nil => []
  | .text _ rest => rest.variableNames
  | .placeholder name rest => name :: rest.variableNames
  | .filtered name _ rest => name :: rest.variableNames
  | .call _ args rest => args.flatMap Page.argumentNames ++ rest.variableNames
  | .comment _ rest => rest.variableNames
  | .block _ _ rest => rest.variableNames

def filters : Document → List Call
  | .nil => []
  | .text _ rest => rest.filters
  | .placeholder _ rest => rest.filters
  | .filtered name f rest => ⟨f, [Markup.token name]⟩ :: rest.filters
  | .call _ _ rest => rest.filters
  | .comment _ rest => rest.filters
  | .block _ _ rest => rest.filters

def inlineCalls : Document → List Call
  | .nil => []
  | .text _ rest => rest.inlineCalls
  | .placeholder _ rest => rest.inlineCalls
  | .filtered _ _ rest => rest.inlineCalls
  | .call name args rest => ⟨name, args⟩ :: rest.inlineCalls
  | .comment _ rest => rest.inlineCalls
  | .block _ _ rest => rest.inlineCalls

def childNames : Document → List Text
  | .nil => []
  | .text _ rest => rest.childNames
  | .placeholder _ rest => rest.childNames
  | .filtered _ _ rest => rest.childNames
  | .call _ _ rest => rest.childNames
  | .comment _ rest => rest.childNames
  | .block name _ rest => name :: rest.childNames

def calls (d : Document) : List Call := d.filters ++ d.inlineCalls

def own (name : Text) (d : Document) : Section where
  name := name
  parts := d.parts
  vars := d.variableNames.foldl addNew []
  calls := d.calls.foldl addNew []
  children := d.childNames

def inner : Document → List Section
  | .nil => []
  | .text _ rest => rest.inner
  | .placeholder _ rest => rest.inner
  | .filtered _ _ rest => rest.inner
  | .call _ _ rest => rest.inner
  | .comment _ rest => rest.inner
  | .block name body rest => body.inner ++ body.own name :: rest.inner

def sections (top : Text) (d : Document) : List Section := d.own top :: d.inner

variable {number : Call → CallId} (d : Document)

theorem content_page (t : Text) :
    (d.page t).content number = t ++ Part.textAll number d.parts := by
  induction d generalizing t with
  | nil => exact (List.append_nil t).symm
  | text u rest ih =>
    rw [page, ih, parts, Part.textAll_append, Part.textAll_chars, List.append_assoc]
  | placeholder name rest ih =>
    rw [page, Page.content, ih, parts, Part.textAll_cons]
    rfl
  | filtered name f rest ih =>
    rw [page, Page.content, ih, parts, Part.textAll_cons]
    rfl
  | call name args rest ih =>
    rw [page, Page.content, ih, parts, Part.textAll_cons]
    rfl
  | comment body rest ih => rw [page, ih, parts]
  | block name body rest _ ih =>
    rw [page, Page.content, ih, parts, Part.textAll_cons]
    rfl

theorem variableNames_page (t : Text) : (d.page t).variableNames = d.variableNames := by
  induction d generalizing t with
  | nil => rfl
  | text u rest ih => exact ih (t ++ u)
  | placeholder name rest ih => rw [page, Page.variableNames, ih, variableNames]
  | filtered name f rest ih => rw [page, Page.variableNames, ih, variableNames]
  | call name args rest ih => rw [page, Page.variableNames, ih, variableNames]
  | comment body rest ih => exact ih t
  | block name body rest _ ih => exact ih []

theorem filters_page (t : Text) : (d.page t).filters = d.filters := by
  induction d generalizing t with
  | nil => rfl
  | text u rest ih => exact ih (t ++ u)
  | placeholder name rest ih => exact ih []
  | filtered name f rest ih => rw [page, Page.filters, ih, filters]
  | call name args rest ih => exact ih []
  | comment body rest ih => exact ih t
  | block name body rest _ ih => exact ih []

theorem inlineCalls_page (t : Text) : (d.page t).inlineCalls = d.inlineCalls := by
  induction d generalizing t with
  | nil => rfl
  | text u rest ih => exact ih (t ++ u)
  | placeholder name rest ih => exact ih []
  | filtered name f rest ih => exact ih []
  | call name args rest ih => rw [page, Page.inlineCalls, ih, inlineCalls]
  | comment body rest ih => exact ih t
  | block name body rest _ ih => exact ih []

theorem calls_page (t : Text) : (d.page t).calls = d.calls := by
  rw [Page.calls, filters_page, inlineCalls_page, calls]

theorem childNames_page (t : Text) : (d.page t).childNames = d.childNames := by
  induction d generalizing t with
  | nil => rfl
  | text u rest ih => exact ih (t ++ u)
  | placeholder name rest ih => exact ih []
  | filtered name f rest ih => exact ih []
  | call name args rest ih => exact ih []
  | comment body rest ih => exact ih t
  | block name body rest _ ih => rw [page, Page.childNames, ih, childNames]

theorem map_name_inner : d.inner.map (·.name) = d.names := by
  induction d with
  | nil => rfl
  | text u rest ih => exact ih
  | placeholder name rest ih => exact ih
  | filtered name f rest ih => exact ih
  | call name args rest ih => exact ih
  | comment body rest ih => exact ih
  | block name body rest ihb ih => rw [inner, List.map_append, List.map_cons, ihb, ih, names]; rfl

theorem map_name_sections (top : Text) : (d.sections top).map (·.name) = top :: d.names := by
  rw [sections, List.map_cons, map_name_inner]
  rfl

def Tells (x : Block × Page) (s : Section) : Prop :=
  ∃ body : Document, x.2 = body.page [] ∧ s = body.own x.1.name

theorem tells_layout (t : Text) (k : Nat) :
    List.Forall₂ Tells ((d.page t).layout k) d.inner := by
  induction d generalizing t k with
  | nil => exact .nil
  | text u rest ih => exact ih (t ++ u) k
  | placeholder name rest ih => exact ih [] k
  | filtered name f rest ih => exact ih [] k
  | call name args rest ih => exact ih [] k
  | comment body rest ih => exact ih t k
  | block name body rest ihb ih =>
    exact List.rel_append (ihb [] k) (.cons ⟨body, rfl, rfl⟩ (ih [] _))

theorem tells_blocks (top : Text) : List.Forall₂ Tells ((d.page []).blocks top) (d.sections top) :=
  .cons ⟨d, rfl, rfl⟩ (d.tells_layout [] 0)

end Document

structure Block.Accords (number : Call → CallId) (b : Block) (s : Section) : Prop where
  name : b.name = s.name
  content : b.content = Part.textAll number s.parts
  vars : b.vars = s.vars
  calls : b.calls = s.calls.map number

theorem Block.Holds.accords {number : Call → CallId} {b : Block} {name : Text} {d : Document}
    (h : b.Holds number name (d.page []))
    (hn : ∀ x ∈ d.calls, ∀ y ∈ d.calls, number x = number y → x = y) :
    b.Accords number (d.own name) where
  name := h.name
  content := by
    rw [h.content, d.content_page]
    rfl
  vars := by
    rw [h.vars, d.variableNames_page]
    rfl
  calls := by
    rw [h.calls, d.calls_page]
    exact foldl_addNew_map [] hn

end BlockTemplate
