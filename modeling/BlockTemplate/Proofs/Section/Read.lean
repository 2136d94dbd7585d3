import BlockTemplate.Proofs.Section.Document

/-!
# Trees that read as sections

A tree reads as a list of sections if it has a block for each of them and no other block, and its
table knows the calls of these sections and no other calls. Compiling a document for any tree gives
a fragment that reads as the sections of the document.
-/

namespace BlockTemplate

open Lookup (IsTree Distinct)

namespace Lookup

def nameAt (look : Lookup) (id : BlockId) : Option Text := (look id).map (·.name)

def Shows (look : Lookup) (number : Call → CallId) (id : BlockId) (s : Section) : Prop :=
  ∃ b, look id = some b ∧ b.Accords number s ∧ b.children.map look.nameAt = s.children.map some

structure Reads (look : Lookup) (number : Call → CallId) (S : List Section) : Prop where
  shown : ∀ s ∈ S, ∃ id, look.Shows number id s
  only : ∀ id b, look id = some b → ∃ s ∈ S, s.name = b.name

end Lookup

namespace CallTable

variable {t : CallTable}

def Knows (t : CallTable) (c : Call) : Prop := ∃ id, t.get? id = some c

theorem get?_numberOf {c : Call} (h : t.Knows c) : t.get? (t.numberOf c) = some c := by
  obtain ⟨id, hid⟩ := h
  rw [numberOf]
  cases hf : t.find? c with
  | none => exact absurd hid (get?_ne_of_find?_none hf id)
  | some i => exact get?_of_find? hf

theorem numberOf_eq (hd : t.Distinct) {c : Call} {id : CallId} (h : t.get? id = some c) :
    t.numberOf c = id := by
  rw [numberOf, (find?_eq_some_iff hd).mpr h]
  rfl

theorem numberOf_inj {c d : Call} (hc : t.Knows c) (hd : t.Knows d)
    (h : t.numberOf c = t.numberOf d) : c = d := by
  have hcs := get?_numberOf hc
  rw [h, get?_numberOf hd, Option.some.injEq] at hcs
  exact hcs.symm

theorem Extends.numberOf {u : CallTable} (h : t.Extends u) (hd : u.Distinct) {c : Call}
    (hc : t.Knows c) : u.numberOf c = t.numberOf c :=
  numberOf_eq hd (h _ c (get?_numberOf hc))

theorem knows_internList {cs : List Call} {c : Call} :
    (internList cs t).Knows c ↔ t.Knows c ∨ c ∈ cs := by
  induction cs generalizing t with
  | nil => simp [internList]
  | cons d cs ih =>
    rw [internList, List.foldl_cons]
    refine ih.trans ?_
    have hstep : (t.intern d).2.Knows c ↔ t.Knows c ∨ c = d := by
      constructor
      · rintro ⟨id, hid⟩
        exact (of_get?_intern hid).imp (fun h => ⟨id, h⟩) (fun h => h)
      · rintro (⟨id, hid⟩ | rfl)
        · exact ⟨id, t.extends_intern d id c hid⟩
        · exact ⟨_, t.get?_intern_self c⟩
    rw [hstep, List.mem_cons, or_assoc]

end CallTable

namespace Fragment

variable {t : Tree} {top source : Text} {d : Document} {replaced : Option BlockId}

theorem look_filledAs (number : Call → CallId) (top : Text) (p : Page) (i : Nat) :
    (filledAs number top p).look i = ((p.blocks top)[i]?).map fun x =>
      { fill number x.1 x.2 with
        parent := (ofPage top p).findIdx? fun q => q.children.contains i } := by
  have hw := look_withParents (ofPage top p) i
  have hb : (ofPage top p)[i]? = ((p.blocks top)[i]?).map (·.1) := by
    rw [← p.map_fst_blocks, List.getElem?_map]
  rw [hb, look] at hw
  rw [look, filledAs, List.getElem?_zipWith, hw]
  cases (p.blocks top)[i]? with
  | none => rfl
  | some x => rfl

theorem map_eq_map_some {α β : Type} {f : α → Option β} {xs : List α} {ys : List β}
    (h : xs.filterMap f = ys) (hf : ∀ x ∈ xs, ∃ y, f x = some y) : xs.map f = ys.map some := by
  subst h
  induction xs with
  | nil => rfl
  | cons x xs ih =>
    obtain ⟨y, hy⟩ := hf x List.mem_cons_self
    rw [List.map_cons, List.filterMap_cons_some hy, List.map_cons, hy,
      ih fun z hz => hf z (List.mem_cons_of_mem x hz)]

theorem mem_calls_iff {c : Call} :
    c ∈ (d.page []).calls ++ (d.page []).innerCalls ↔ ∃ s ∈ d.sections top, c ∈ s.calls := by
  have hcalls : ((d.page []).blocks top).flatMap (·.2.calls) =
      (d.page []).calls ++ (d.page []).innerCalls := by
    rw [Page.blocks, List.flatMap_cons, Page.calls_layout]
  rw [← hcalls, List.mem_flatMap]
  have htells := d.tells_blocks top
  generalize (d.page []).blocks top = xs at htells
  generalize d.sections top = S at htells
  induction htells with
  | nil => simp
  | @cons x s xs S hx _ ih =>
    obtain ⟨body, hbody, rfl⟩ := hx
    have hown : c ∈ x.2.calls ↔ c ∈ (body.own x.1.name).calls := by
      rw [hbody, body.calls_page, Document.own, mem_foldl_addNew]
      simp
    simp only [List.exists_mem_cons_iff, hown, ih]

theorem reads_filledAs {u : CallTable} (hp : (d.page []).Plain)
    (hk : ∀ s ∈ d.sections top, ∀ c ∈ s.calls, u.Knows c)
    (htree : IsTree (filledAs u.numberOf top (d.page [])).look 0) :
    (filledAs u.numberOf top (d.page [])).look.Reads u.numberOf (d.sections top) := by
  have htells := d.tells_blocks top
  have hlook := look_filledAs u.numberOf top (d.page [])
  have hname : ∀ i, (filledAs u.numberOf top (d.page [])).look.nameAt i =
      ((d.page []).blocks top)[i]?.map (·.1.name) := by
    intro i
    rw [Lookup.nameAt, hlook, Option.map_map]
    rfl
  -- Blocks and sections stand in the same order, so the slot of a block is the place of its section.
  constructor
  · intro s hs
    obtain ⟨i, hi, rfl⟩ := List.getElem_of_mem hs
    have hix : i < ((d.page []).blocks top).length := htells.length_eq ▸ hi
    obtain ⟨body, hbody, hown⟩ := htells.get hix hi
    rw [List.get_eq_getElem] at hbody hown
    have hb := hlook i
    rw [List.getElem?_eq_getElem hix, Option.map_some] at hb
    have hcalls : ∀ c ∈ body.calls, u.Knows c := by
      intro c hc
      refine hk _ hs c ?_
      have hmem : c ∈ (body.own ((d.page []).blocks top)[i].1.name).calls := by
        rw [Document.own, mem_foldl_addNew]
        exact .inr hc
      exact hown ▸ hmem
    have hacc : Block.Accords u.numberOf (fill u.numberOf ((d.page []).blocks top)[i].1
        ((d.page []).blocks top)[i].2) (d.sections top)[i] := by
      rw [hbody, hown]
      refine Block.Holds.accords ⟨rfl, rfl, rfl, rfl⟩ ?_
      intro x hx y hy
      exact CallTable.numberOf_inj (hcalls x hx) (hcalls y hy)
    refine ⟨i, _, hb, ⟨hacc.name, hacc.content, hacc.vars, hacc.calls⟩, ?_⟩
    have hscan := hp.scannable top _ (List.getElem_mem hix)
    rw [hown, show (body.own _).children = ((d.page []).blocks top)[i].2.childNames by
      rw [hbody, body.childNames_page]; rfl]
    refine map_eq_map_some ?_ ?_
    · rw [← hscan.childNames]
      exact List.filterMap_congr fun c _ => hname c
    · intro c hc
      obtain ⟨g, hg, -⟩ := htree.child_live hb hc
      exact ⟨g.name, by rw [Lookup.nameAt, hg]; rfl⟩
  · intro i b hb
    rw [hlook, Option.map_eq_some_iff] at hb
    obtain ⟨x, hx, rfl⟩ := hb
    obtain ⟨hix, hget⟩ := List.getElem?_eq_some_iff.mp hx
    have hi : i < (d.sections top).length := htells.length_eq ▸ hix
    obtain ⟨body, -, hown⟩ := htells.get hix hi
    rw [List.get_eq_getElem, List.get_eq_getElem, hget] at hown
    refine ⟨(d.sections top)[i], List.getElem_mem hi, ?_⟩
    rw [hown]
    rfl

structure Gives (t : Tree) (top : Text) (S : List Section) (f : Fragment) (u : CallTable) :
    Prop where
  ready : f.Ready top u
  reads : f.look.Reads u.numberOf S
  grown : t.calls.Extends u
  distinct : u.Distinct
  knows : ∀ c, u.Knows c ↔ t.calls.Knows c ∨ ∃ s ∈ S, c ∈ s.calls

theorem compile_document (hp : (d.page []).Plain) (hs : Tag.stripComments source = (d.page []).print)
    (hn : (top :: d.names).Nodup)
    (hfree : ∀ name ∈ top :: d.names, t.contains name = true → name ∈ leavingNames t replaced)
    (hd : t.calls.Distinct) :
    ∃ f u, compile .standard t top source replaced = (.ok f, u) ∧
      Gives t top (d.sections top) f u ∧ f.Named t (leavingNames t replaced) := by
  rw [← d.names_page []] at hn hfree
  have hcompile := compile_into hp hs hn hfree hd
  have hfits := fits_compile .standard t top source replaced
  rw [hcompile] at hfits
  have hready := hfits.ready _ rfl
  have hknows : ∀ c, (CallTable.internList ((d.page []).calls ++ (d.page []).innerCalls)
      t.calls).Knows c ↔ t.calls.Knows c ∨ ∃ s ∈ d.sections top, c ∈ s.calls := by
    intro c
    rw [CallTable.knows_internList, mem_calls_iff]
  refine ⟨_, _, hcompile, ⟨hready, ?_, hfits.grown, hfits.distinct hd, hknows⟩, hfits.named _ rfl⟩
  refine reads_filledAs hp ?_ hready.tree
  intro s hmem c hc
  exact (hknows c).mpr (.inr ⟨s, hmem, hc⟩)

end Fragment

namespace Tree

/-- The tree has a block for each section and no other block, and knows the calls of the sections. -/
structure Reads (t : Tree) (S : List Section) : Prop where
  blocks : Lookup.Reads t.get? t.calls.numberOf S
  calls : ∀ c, t.calls.Knows c ↔ ∃ s ∈ S, c ∈ s.calls

end Tree

end BlockTemplate
