import BlockTemplate.Proofs.Document.Layout
import BlockTemplate.Proofs.Template.Session

/-!
# Compiling printed documents

Compiling undoes printing: the tree of a printed document has one block for each block of the
document, nested and ordered as they are, and each block refers to what its page holds.
-/

namespace BlockTemplate

structure Block.Holds (number : Call → CallId) (b : Block) (name : Text) (p : Page) : Prop where
  name : b.name = name
  content : b.content = p.content number
  vars : b.vars = p.variableNames.foldl addNew []
  calls : b.calls = (p.calls.map number).foldl addNew []

def Page.Shown (number : Call → CallId) : Page → List Outline → Prop
  | .last _, os => os = []
  | .placeholder _ _ rest, os => rest.Shown number os
  | .filtered _ _ _ rest, os => rest.Shown number os
  | .call _ _ _ rest, os => rest.Shown number os
  | .block _ name body rest, os =>
    ∃ o os', os = o :: os' ∧ o.block.Holds number name body ∧ body.Shown number o.children ∧
      rest.Shown number os'

structure Tree.Represents (t : Tree) (p : Page) : Prop where
  calls : t.calls.slots = p.distinctCalls.map some
  shown : ∃ o, t.outline? rootId = some o ∧ o.block.Holds p.number rootName p ∧
    p.Shown p.number o.children ∧ (o.preorder.map (·.1)).Nodup ∧
    ∀ id b, (id, b) ∈ o.preorder ↔ t.get? id = some b

theorem Document.names_page (d : Document) (t : Text) : (d.page t).names = d.names := by
  induction d generalizing t with
  | nil => rfl
  | text u rest ih => exact ih (t ++ u)
  | placeholder name rest ih => exact ih []
  | filtered name f rest ih => exact ih []
  | call name args rest ih => exact ih []
  | comment body rest ih => exact ih t
  | block name body rest ihb ih => rw [page, Page.names, ihb, ih, names]

namespace Fragment

open Lookup (IsTree)

theorem checkNames_ok {t : Tree} {leaving seen : List Text} {f : Fragment}
    (hn : (f.map (·.name)).Nodup) (hs : ∀ b ∈ f, b.name ∉ seen)
    (hl : ∀ b ∈ f, t.contains b.name = true → b.name ∈ leaving) :
    checkNames t leaving seen f = .ok () := by
  induction f generalizing seen with
  | nil => rfl
  | cons b f ih =>
    rw [List.map_cons, List.nodup_cons] at hn
    have hfree : ¬ (b.name ∈ seen ∨ (t.contains b.name = true ∧ b.name ∉ leaving)) := by
      rintro (hm | ⟨hc, hm⟩)
      · exact hs b List.mem_cons_self hm
      · exact hm (hl b List.mem_cons_self hc)
    rw [checkNames, if_neg hfree]
    refine ih hn.2 ?_ fun x hx => hl x (List.mem_cons_of_mem _ hx)
    intro x hx hm
    rcases List.mem_cons.mp hm with he | hm
    · exact hn.1 (he ▸ List.mem_map_of_mem hx)
    · exact hs x (List.mem_cons_of_mem _ hx) hm

theorem leavingNames_empty : leavingNames .empty (some rootId) = [rootName] := rfl

theorem eq_rootName_of_contains {name : Text} (h : Tree.empty.contains name = true) :
    name = rootName := by
  obtain ⟨id, hid⟩ := Option.isSome_iff_exists.mp h
  obtain ⟨b, hb, hbn⟩ := Tree.get?_of_find? hid
  have h0 := Tree.get?_empty id
  rw [hb] at h0
  split at h0
  · cases h0
    exact hbn.symm
  · cases h0

def filledAs (number : Call → CallId) (top : Text) (p : Page) : Fragment :=
  List.zipWith (fun b x => fill number b x.2) (withParents (ofPage top p)) (p.blocks top)

def filled (p : Page) : Fragment :=
  List.zipWith (fun b x => fill p.number b x.2) (withParents (ofPage rootName p))
    (p.blocks rootName)

variable {p : Page} {source : Text}

theorem compile_into {t : Tree} {top : Text} {replaced : Option BlockId} (hp : p.Plain)
    (hs : Tag.stripComments source = p.print) (hn : (top :: p.names).Nodup)
    (hfree : ∀ name ∈ top :: p.names, t.contains name = true → name ∈ leavingNames t replaced)
    (hd : t.calls.Distinct) :
    compile .standard t top source replaced =
      (.ok (filledAs (CallTable.internList (p.calls ++ p.innerCalls) t.calls).numberOf top p),
        CallTable.internList (p.calls ++ p.innerCalls) t.calls) := by
  have hshows : List.Forall₂ Shows (withParents (ofPage top p)) (p.blocks top) := by
    rw [← p.map_fst_blocks]
    exact shows_withParents _
  have hnames : (withParents (ofPage top p)).map (·.name) = top :: p.names := by
    rw [← names_ofPage top p, names_of_shows hshows, ← p.map_fst_blocks, List.map_map]
    rfl
  have hcheck : checkNames t (leavingNames t replaced) [] (withParents (ofPage top p)) = .ok () := by
    refine checkNames_ok (hnames ▸ hn) (by simp) ?_
    intro b hb
    exact hfree b.name (hnames ▸ List.mem_map_of_mem hb)
  have hcalls : (p.blocks top).flatMap (·.2.calls) = p.calls ++ p.innerCalls := by
    rw [Page.blocks, List.flatMap_cons, p.calls_layout]
  have hscan := scanAll_pages hshows hshows (hp.scannable top) t.calls (.refl _)
    (CallTable.Distinct.internList _ hd)
  rw [hcalls] at hscan
  rw [compile, hs, (extract_page top hp.clean).1 hn]
  simp only [hcheck, hscan]
  rfl

theorem compile_page (hp : p.Plain) (hs : Tag.stripComments source = p.print)
    (hn : (rootName :: p.names).Nodup) :
    compile .standard .empty rootName source (some rootId) =
      (.ok (filled p), ⟨p.distinctCalls.map some⟩) := by
  have hfree : ∀ name ∈ rootName :: p.names, Tree.empty.contains name = true →
      name ∈ leavingNames .empty (some rootId) := by
    intro name _ hc
    rw [leavingNames_empty, eq_rootName_of_contains hc]
    exact List.mem_singleton_self _
  have htable : CallTable.internList (p.calls ++ p.innerCalls) Tree.empty.calls =
      ⟨p.distinctCalls.map some⟩ := CallTable.internList_map_some [] (p.calls ++ p.innerCalls)
  have hnumber : CallTable.numberOf ⟨p.distinctCalls.map some⟩ = p.number := by
    funext c
    exact CallTable.numberOf_map_some p.distinctCalls c
  have h := compile_into hp hs hn hfree CallTable.distinct_empty
  rw [htable, hnumber] at h
  exact h

theorem compile_page_duplicate (hp : p.Plain) (hs : Tag.stripComments source = p.print)
    (hn : ¬ (rootName :: p.names).Nodup) :
    ∃ name, (compile .standard .empty rootName source (some rootId)).1 =
      .error (.duplicateBlock name) := by
  obtain ⟨name, hname⟩ := (extract_page rootName hp.clean).2 hn
  refine ⟨name, ?_⟩
  rw [compile, hs, hname]

theorem look_filled {i : Nat} {x : Block × Page} (h : (p.blocks rootName)[i]? = some x) :
    ∃ parent, (filled p).look i = some { fill p.number x.1 x.2 with parent := parent } := by
  have hb : (ofPage rootName p)[i]? = some x.1 := by
    rw [← p.map_fst_blocks, List.getElem?_map, h, Option.map_some]
  have hw : (withParents (ofPage rootName p))[i]? = _ := look_withParents (ofPage rootName p) i
  rw [hb, Option.map_some] at hw
  refine ⟨(ofPage rootName p).findIdx? fun q => q.children.contains i, ?_⟩
  rw [look, filled, List.getElem?_zipWith, hw, h]
  rfl

end Fragment

namespace Page

open Lookup (Plant)

variable {number : Call → CallId} {all : List (Block × Page)} {look : Lookup} {place : Nat → BlockId}

def Placed (number : Call → CallId) (look : Lookup) (place : Nat → BlockId) (i : Nat)
    (x : Block × Page) : Prop :=
  ∃ b, look (place i) = some b ∧ b.Holds number x.1.name x.2 ∧
    b.children = x.1.children.map place

theorem shown_of_placed (hall : ∀ i x, all[i]? = some x → Placed number look place i x) {p : Page}
    {k : Nat} (h : Laid all k p) {os : List Outline}
    (hids : os.map Outline.id = (p.kids k).map place) (hm : ∀ o ∈ os, o.Mirrors look) :
    p.Shown number os := by
  induction p generalizing k os with
  | last t => exact List.map_eq_nil_iff.mp hids
  | placeholder t name rest ih => exact ih h hids hm
  | filtered t name f rest ih => exact ih h hids hm
  | call t name args rest ih => exact ih h hids hm
  | block t name body rest ihb ih =>
    cases os with
    | nil => cases hids
    | cons o os =>
      rw [kids, List.map_cons, List.map_cons, List.cons.injEq] at hids
      have ho := hm o List.mem_cons_self
      obtain ⟨b, hb, hholds, hchildren⟩ := hall _ _ h.at_block
      have hlook := ho.look_id
      rw [hids.1, hb, Option.some.injEq] at hlook
      subst hlook
      have hbody : o.children.map Outline.id = (body.kids k).map place := by
        rw [ho.ids_children, hchildren]
        rfl
      exact ⟨o, os, rfl, hholds, ihb h.within hbody fun c hc => ho.of_mem_children hc,
        ih h.behind hids.2 fun c hc => hm c (List.mem_cons_of_mem _ hc)⟩

theorem placed_of_plant {p : Page} {new : Lookup} {id : BlockId} {leaf : Block}
    (s : Plant look new (Fragment.filled p).look place id leaf) :
    ∀ i x, (p.blocks rootName)[i]? = some x → Placed p.number new place i x := by
  intro i x hx
  obtain ⟨parent, hi⟩ := Fragment.look_filled hx
  exact ⟨_, s.placed i _ hi, ⟨rfl, rfl, rfl, rfl⟩, rfl⟩

end Page

namespace Tree

open Lookup (IsTree)

theorem represents_graftOver {p : Page} {calls : CallTable}
    (hcalls : calls.slots = p.distinctCalls.map some) (hf : IsTree (Fragment.filled p).look 0)
    (ht : IsTree (({ Tree.empty with calls := calls } : Tree).graftOver rootId
      (Fragment.filled p)).get? rootId) :
    (({ Tree.empty with calls := calls } : Tree).graftOver rootId
      (Fragment.filled p)).Represents p := by
  have hroot : ({ Tree.empty with calls := calls } : Tree).get? rootId =
      some { name := rootName, content := [] } := rfl
  have hplant := plant_graftOver hf hroot rfl
  have hplaced := Page.placed_of_plant hplant
  obtain ⟨b, hb, hholds, hchildren⟩ := hplaced 0 (p.asBlock 0 rootName, p) rfl
  change Tree.get? _ rootId = some b at hb
  obtain ⟨o, ho, hid, hm⟩ := outline?_of_live ht hb
  have hlook := hm.look_id
  rw [hid, hb, Option.some.injEq] at hlook
  subst hlook
  refine ⟨(congrArg (·.slots) (calls_graftAt _ _ _ _)).trans hcalls, o, ho, hholds, ?_,
    hm.nodup_preorder ht, ?_⟩
  · refine Page.shown_of_placed hplaced (Page.laid_blocks rootName p) ?_
      fun c hc => hm.of_mem_children hc
    rw [hm.ids_children, hchildren]
    rfl
  · intro id d
    rw [hm.mem_preorder_iff, hid]
    exact ⟨fun h => h.2, fun h => ⟨ht.reached id d h, h⟩⟩

end Tree

namespace Template

variable {e : Engine}

theorem compile_of_fragment {source : Text} {f : Fragment} {calls : CallTable}
    (h : Fragment.compile e.dialect .empty rootName source (some rootId) = (.ok f, calls)) :
    compile e source = .ok
      { tree := ({ Tree.empty with calls := calls } : Tree).graftOver rootId f
        state := State.fresh {}
        current := rootId
        nextInclusion := 0 } := by
  rw [compile, setTemplate, h]
  rfl

/-- A document whose block names are distinct is compiled, to a tree that shows its page. -/
theorem represents_compile (he : e.dialect = .standard) {d : Document} (hd : d.Plain)
    (hn : (rootName :: d.names).Nodup) :
    ∃ t, compile e d.print = .ok t ∧ t.tree.Represents (d.page []) := by
  rw [← d.names_page []] at hn
  have hfragment := Fragment.compile_page hd.page (Document.stripComments_print hd) hn
  have hready := (Fragment.fits_compile .standard .empty rootName d.print (some rootId)).ready
  rw [hfragment] at hready
  rw [← he] at hfragment
  have hcompile := compile_of_fragment hfragment
  exact ⟨_, hcompile, Tree.represents_graftOver rfl (hready _ rfl).tree
    (sound_compile hcompile).tree.tree⟩

theorem compile_duplicate (he : e.dialect = .standard) {d : Document} (hd : d.Plain)
    (hn : ¬ (rootName :: d.names).Nodup) :
    ∃ name, compile e d.print = .error (.duplicateBlock name) := by
  rw [← d.names_page []] at hn
  obtain ⟨name, hname⟩ := Fragment.compile_page_duplicate hd.page (Document.stripComments_print hd) hn
  refine ⟨name, ?_⟩
  rw [compile, setTemplate, he]
  generalize Fragment.compile .standard .empty rootName d.print (some rootId) = r at hname
  obtain ⟨r, calls⟩ := r
  cases hname
  rfl

theorem nodup_of_compile (he : e.dialect = .standard) {d : Document} (hd : d.Plain) {t : Template}
    (h : compile e d.print = .ok t) : (rootName :: d.names).Nodup := by
  by_contra hn
  obtain ⟨name, hname⟩ := compile_duplicate he hd hn
  rw [h] at hname
  cases hname

/-- Compiling undoes printing, and what it refuses is a name that comes twice. -/
theorem compile_print (he : e.dialect = .standard) {d : Document} (hd : d.Plain) :
    ((∃ t, compile e d.print = .ok t) ↔ d.names.Nodup ∧ rootName ∉ d.names) ∧
    (¬ (d.names.Nodup ∧ rootName ∉ d.names) →
      ∃ name, compile e d.print = .error (.duplicateBlock name)) ∧
    ∀ t, compile e d.print = .ok t → t.tree.Represents (d.page []) := by
  have hnames : (d.names.Nodup ∧ rootName ∉ d.names) ↔ (rootName :: d.names).Nodup := by
    rw [List.nodup_cons, and_comm]
  rw [hnames]
  refine ⟨⟨?_, ?_⟩, compile_duplicate he hd, ?_⟩
  · rintro ⟨t, ht⟩
    exact nodup_of_compile he hd ht
  · intro hn
    obtain ⟨t, ht, -⟩ := represents_compile he hd hn
    exact ⟨t, ht⟩
  · intro t ht
    obtain ⟨t', ht', hrep⟩ := represents_compile he hd (nodup_of_compile he hd ht)
    rw [ht, Except.ok.injEq] at ht'
    rw [ht']
    exact hrep

def rows : Document :=
  .text "List ".toList <| .comment "<!-- BEGIN old".toList <|
    .block "row".toList
      (.filtered "name".toList "h".toList <| .call "u".toList ["it's \\\x7bname\x7d".toList, []] .nil) <|
      .placeholder "end".toList .nil

theorem compile_print_rows : rows.Plain ∧ rows.names.Nodup ∧
    ∃ t, compile .standard rows.print = .ok t ∧ t.tree.Represents (rows.page []) := by
  have hplain : rows.Plain := ⟨⟨by decide, by decide, by decide⟩, by decide⟩
  have hnames : rows.names.Nodup ∧ rootName ∉ rows.names := ⟨by decide, by decide⟩
  have h := compile_print (e := .standard) rfl hplain
  obtain ⟨t, ht⟩ := h.1.mpr hnames
  exact ⟨hplain, hnames.1, t, ht, h.2.2 t ht⟩

end Template

end BlockTemplate
