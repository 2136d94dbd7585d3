import BlockTemplate.Proofs.Document.Calls
import Mathlib.Data.List.Forall2

/-!
# Where the blocks of a page lie

Every finished block comes from a page, and the places of its children are those of the blocks
directly in that page. So scanning knows the names of the child placeholders of each block.
-/

namespace BlockTemplate

namespace Page

def layout : (done : Nat) → Page → List (Block × Page)
  | _, .last _ => []
  | k, .placeholder _ _ rest => rest.layout k
  | k, .filtered _ _ _ rest => rest.layout k
  | k, .call _ _ _ rest => rest.layout k
  | k, .block _ name body rest =>
    body.layout k ++ (body.asBlock k name, body) :: rest.layout (k + body.names.length + 1)

def blocks (top : Text) (p : Page) : List (Block × Page) := (p.asBlock 0 top, p) :: p.layout 0

theorem map_fst_layout (p : Page) (k : Nat) : (p.layout k).map (·.1) = p.closed k := by
  induction p generalizing k with
  | last t => rfl
  | placeholder t name rest ih => exact ih k
  | filtered t name f rest ih => exact ih k
  | call t name args rest ih => exact ih k
  | block t name body rest ihb ih =>
    rw [layout, closed, List.map_append, List.map_cons, ihb, ih]

theorem map_fst_blocks (top : Text) (p : Page) :
    (p.blocks top).map (·.1) = Fragment.ofPage top p := by
  rw [blocks, List.map_cons, map_fst_layout, Fragment.ofPage]

theorem length_layout (p : Page) (k : Nat) : (p.layout k).length = p.names.length := by
  rw [← p.length_closed k, ← p.map_fst_layout k, List.length_map]

theorem calls_layout (p : Page) (k : Nat) : (p.layout k).flatMap (·.2.calls) = p.innerCalls := by
  induction p generalizing k with
  | last t => rfl
  | placeholder t name rest ih => exact ih k
  | filtered t name f rest ih => exact ih k
  | call t name args rest ih => exact ih k
  | block t name body rest ihb ih =>
    rw [layout, innerCalls, List.flatMap_append, List.flatMap_cons, ihb, ih]

def Laid (all : List (Block × Page)) (k : Nat) (p : Page) : Prop := p.layout k <+: all.drop (k + 1)

theorem laid_blocks (top : Text) (p : Page) : Laid (p.blocks top) 0 p := List.prefix_rfl

variable {all : List (Block × Page)} {k : Nat} {t name : Text} {p body rest : Page}

theorem Laid.within (h : Laid all k (.block t name body rest)) : Laid all k body :=
  (List.prefix_append _ _).trans h

theorem Laid.at_block (h : Laid all k (.block t name body rest)) :
    all[k + body.names.length + 1]? = some (body.asBlock k name, body) := by
  obtain ⟨s, hs⟩ := h
  have hlen := body.length_layout k
  have hidx : k + body.names.length + 1 = (k + 1) + body.names.length := by omega
  rw [hidx, ← List.getElem?_drop, ← hs, layout, List.append_assoc,
    List.getElem?_append_right (by rw [hlen]), hlen, Nat.sub_self]
  rfl

theorem Laid.behind (h : Laid all k (.block t name body rest)) :
    Laid all (k + body.names.length + 1) rest := by
  obtain ⟨s, hs⟩ := h
  have hlen := body.length_layout k
  have hidx : k + body.names.length + 1 + 1 = (k + 1) + (body.names.length + 1) := by omega
  have hdrop : all.drop (k + body.names.length + 1 + 1) =
      rest.layout (k + body.names.length + 1) ++ s := by
    rw [hidx, ← List.drop_drop, ← hs, layout, List.append_assoc, ← hlen, List.drop_append,
      List.drop_eq_nil_of_le (Nat.le_succ _), Nat.add_sub_cancel_left]
    rfl
  rw [Laid, hdrop]
  exact List.prefix_append _ _

theorem childNames_kids (h : Laid all k p) :
    (p.kids k).filterMap (fun i => all[i]?.map (·.1.name)) = p.childNames := by
  induction p generalizing k with
  | last t => rfl
  | placeholder t name rest ih => exact ih h
  | filtered t name f rest ih => exact ih h
  | call t name args rest ih => exact ih h
  | block t name body rest ihb ih =>
    rw [kids, List.filterMap_cons, h.at_block, Option.map_some, ih h.behind]
    rfl

structure Scannable (all : List (Block × Page)) (x : Block × Page) : Prop where
  content : x.1.content = x.2.surface
  childNames : x.1.children.filterMap (fun i => all[i]?.map (·.1.name)) = x.2.childNames
  clean : x.2.clean = true
  unreserved : x.2.unreserved = true

theorem scannable_asBlock (h : Laid all k p) (name : Text) (hc : p.clean = true)
    (hu : p.unreserved = true) : Scannable all (p.asBlock k name, p) :=
  ⟨rfl, childNames_kids h, hc, hu⟩

theorem scannable_layout (h : Laid all k p) (hc : p.clean = true)
    (hw : p.unreservedWithin = true) : ∀ x ∈ p.layout k, Scannable all x := by
  induction p generalizing k with
  | last t =>
    intro x hx
    cases hx
  | placeholder t name rest ih =>
    simp only [clean, Bool.and_eq_true] at hc
    exact ih h hc.2 hw
  | filtered t name f rest ih =>
    simp only [clean, Bool.and_eq_true] at hc
    exact ih h hc.2 hw
  | call t name args rest ih =>
    simp only [clean, Bool.and_eq_true] at hc
    exact ih h hc.2 hw
  | block t name body rest ihb ih =>
    simp only [clean, Bool.and_eq_true] at hc
    simp only [unreservedWithin, Bool.and_eq_true] at hw
    intro x hx
    rcases List.mem_append.mp hx with hx | hx
    · exact ihb h.within hc.1.2 hw.1.2 x hx
    · rcases List.mem_cons.mp hx with rfl | hx
      · exact scannable_asBlock h.within name hc.1.2 hw.1.1
      · exact ih h.behind hc.2 hw.2 x hx

theorem Plain.scannable (h : p.Plain) (top : Text) :
    ∀ x ∈ p.blocks top, Scannable (p.blocks top) x := by
  intro x hx
  rcases List.mem_cons.mp hx with rfl | hx
  · exact scannable_asBlock (laid_blocks top p) top h.clean h.unreserved
  · exact scannable_layout (laid_blocks top p) h.clean h.within x hx

end Page

namespace Fragment

open CallTable (internList)

def fill (number : Call → CallId) (b : Block) (p : Page) : Block :=
  { b with
    content := p.content number
    vars := p.variableNames.foldl addNew []
    calls := (p.calls.map number).foldl addNew [] }

structure Shows (b : Block) (x : Block × Page) : Prop where
  name : b.name = x.1.name
  content : b.content = x.1.content
  children : b.children = x.1.children

theorem shows_withParents (xs : List (Block × Page)) :
    List.Forall₂ Shows (withParents (xs.map (·.1))) xs := by
  rw [List.forall₂_iff_get]
  refine ⟨by simp [withParents], ?_⟩
  intro i h₁ h₂
  simp only [withParents, List.get_eq_getElem, List.getElem_mapIdx, List.getElem_map]
  exact ⟨rfl, rfl, rfl⟩

theorem names_of_shows {f : Fragment} {all : List (Block × Page)}
    (h : List.Forall₂ Shows f all) : f.map (·.name) = all.map (·.1.name) := by
  induction h with
  | nil => rfl
  | cons hs _ ih => rw [List.map_cons, List.map_cons, ih, hs.name]

theorem childNames_of_shows {f : Fragment} {all : List (Block × Page)}
    (h : List.Forall₂ Shows f all) (b : Block) :
    f.childNames b = b.children.filterMap fun i => all[i]?.map (·.1.name) := by
  have hat : ∀ i : Nat, f[i]?.map (·.name) = all[i]?.map (·.1.name) := by
    intro i
    rw [← List.getElem?_map, names_of_shows h, List.getElem?_map]
  rw [childNames]
  simp only [hat]

theorem scanAll_pages {whole : Fragment} {all xs : List (Block × Page)} {bs : List Block}
    (hwhole : List.Forall₂ Shows whole all) (h : List.Forall₂ Shows bs xs)
    (hxs : ∀ x ∈ xs, Page.Scannable all x) (table : CallTable) {u : CallTable}
    (he : (internList (xs.flatMap (·.2.calls)) table).Extends u) (hd : u.Distinct) :
    scanAll .standard whole bs table =
      (.ok (List.zipWith (fun b x => fill u.numberOf b x.2) bs xs),
        internList (xs.flatMap (·.2.calls)) table) := by
  induction h generalizing table with
  | nil => rfl
  | @cons b x bs xs hs _ ih =>
    rw [List.flatMap_cons, CallTable.internList_append] at he ⊢
    have hx := hxs x List.mem_cons_self
    have hnames : whole.childNames b = x.2.childNames := by
      rw [childNames_of_shows hwhole, hs.children, hx.childNames]
    have hfree : ∀ name ∈ x.2.variableNames, Listing.reserved x.2.childNames name = false := by
      have hu := hx.unreserved
      rw [Page.unreserved, List.all_eq_true] at hu
      intro name hname
      simpa using hu name hname
    have hscan := Listing.scan_page hx.clean (fun _ hm => hm) hfree b (hs.content.trans hx.content)
      ((CallTable.extends_internList (xs.flatMap (·.2.calls)) _).trans he) hd
    have hrest := ih (fun y hy => hxs y (List.mem_cons_of_mem _ hy)) (internList x.2.calls table) he
    rw [scanAll, hnames, hscan]
    simp only [hrest]
    rfl

end Fragment

end BlockTemplate
