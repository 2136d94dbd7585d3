import BlockTemplate.Fragment.Extract
import BlockTemplate.Proofs.Document.Comments

/-!
# Blocks of printed documents

Extracting the blocks of a page gives one finished block for each block of the page, in the order in
which they end, if their names differ.
-/

namespace BlockTemplate

namespace Page

def surface : Page → Text
  | .last t => t
  | .placeholder t name rest => t ++ (Markup.token name ++ rest.surface)
  | .filtered t name f rest => t ++ (Markup.filter name f ++ rest.surface)
  | .call t name args rest => t ++ (Markup.call name args ++ rest.surface)
  | .block t name _ rest => t ++ (Markup.token (childName name) ++ rest.surface)

def kids : (done : Nat) → Page → List Nat
  | _, .last _ => []
  | k, .placeholder _ _ rest => rest.kids k
  | k, .filtered _ _ _ rest => rest.kids k
  | k, .call _ _ _ rest => rest.kids k
  | k, .block _ _ body rest =>
    (k + body.names.length + 1) :: rest.kids (k + body.names.length + 1)

def asBlock (k : Nat) (name : Text) (p : Page) : Block :=
  { name := name, content := p.surface, children := p.kids k }

def closed : (done : Nat) → Page → List Block
  | _, .last _ => []
  | k, .placeholder _ _ rest => rest.closed k
  | k, .filtered _ _ _ rest => rest.closed k
  | k, .call _ _ _ rest => rest.closed k
  | k, .block _ name body rest =>
    body.closed k ++ body.asBlock k name :: rest.closed (k + body.names.length + 1)

theorem names_closed (p : Page) (k : Nat) : (p.closed k).map (·.name) = p.names := by
  induction p generalizing k with
  | last t => rfl
  | placeholder t name rest ih => exact ih k
  | filtered t name f rest ih => exact ih k
  | call t name args rest ih => exact ih k
  | block t name body rest ihb ih =>
    rw [closed, names, List.map_append, List.map_cons, ihb, ih]
    rfl

theorem length_closed (p : Page) (k : Nat) : (p.closed k).length = p.names.length := by
  rw [← p.names_closed k, List.length_map]

theorem any_closed (p : Page) (k : Nat) (m : Text) :
    (p.closed k).any (·.name = m) = decide (m ∈ p.names) := by
  rw [← p.names_closed k, Bool.eq_iff_iff, List.any_eq_true, decide_eq_true_eq, List.mem_map]
  simp only [decide_eq_true_eq]

end Page

namespace Extraction

variable {d : Dialect} {e : Extraction}

def extend (e : Extraction) (t : Text) (bs : List Block) (cs : List Nat) : Extraction :=
  ({ e with closed := e.closed ++ bs } : Extraction).onInner fun f =>
    { f.write t with children := f.children ++ cs }

theorem extend_extend (e : Extraction) (t u : Text) (bs as : List Block) (cs ds : List Nat) :
    (e.extend t bs cs).extend u as ds = e.extend (t ++ u) (bs ++ as) (cs ++ ds) := by
  obtain ⟨base, opened, closed⟩ := e
  cases opened <;> simp [extend, onInner, Frame.write]

theorem extend_nil (e : Extraction) : e.extend [] [] [] = e := by
  obtain ⟨base, opened, closed⟩ := e
  cases opened <;> simp [extend, onInner, Frame.write]

theorem closed_extend (e : Extraction) (t : Text) (bs : List Block) (cs : List Nat) :
    (e.extend t bs cs).closed = e.closed ++ bs := by
  obtain ⟨base, opened, closed⟩ := e
  cases opened <;> rfl

theorem names_extend (e : Extraction) (t : Text) (bs : List Block) (cs : List Nat) (m : Text) :
    (e.extend t bs cs).names m = (e.names m || bs.any (·.name = m)) := by
  have hbase : (e.extend t bs cs).base.name = e.base.name := by
    obtain ⟨base, opened, closed⟩ := e
    cases opened <;> rfl
  rw [names, names, closed_extend, hbase, List.any_append, Bool.or_assoc]

def enter (e : Extraction) (name : Text) : Extraction :=
  { e with opened := ⟨name, Markup.opens name, [], []⟩ :: e.opened }

theorem step_char (e : Extraction) (c : Char) : e.step d (.char c) = .ok (e.extend [c] [] []) := by
  obtain ⟨base, opened, closed⟩ := e
  cases opened <;> simp [step, extend, onInner, Frame.write, Piece.raw]

theorem run_chars (t : Text) (ps : List (Piece Tag)) (e : Extraction) :
    (t.map Piece.char ++ ps).foldlM (step d) e = ps.foldlM (step d) (e.extend t [] []) := by
  induction t generalizing e with
  | nil => rw [extend_nil]; rfl
  | cons c t ih =>
    rw [List.map_cons, List.cons_append, List.foldlM_cons, step_char]
    refine (ih (e.extend [c] [] [])).trans ?_
    rw [extend_extend]
    rfl

theorem run_clear {a rest : Text} (h : Text.Clear Tag.opening a rest) (e : Extraction) :
    (Tag.pieces (a ++ rest)).foldlM (step d) e =
      (Tag.pieces rest).foldlM (step d) (e.extend a [] []) := by
  rw [Tag.pieces, Text.pieces_append_of_clear h, run_chars]
  rfl

theorem run_opens {name : Text} (hn : Page.isBlockName name = true) (rest : Text)
    (e : Extraction) :
    (Tag.pieces (Markup.opens name ++ rest)).foldlM (step d) e =
      (Tag.pieces rest).foldlM (step d) (e.enter name) := by
  rw [Tag.pieces_opens hn, List.foldlM_cons]
  rfl

theorem extend_enter (e : Extraction) (name t : Text) (bs : List Block) (cs : List Nat) :
    (e.enter name).extend t bs cs =
      { e with
        opened := ⟨name, Markup.opens name, t.reverse, cs⟩ :: e.opened
        closed := e.closed ++ bs } := by
  simp [enter, extend, onInner, Frame.write]

theorem closing?_self (f : Frame) (around : List Frame) :
    f.closing? f.name around = some (f, around) := by
  cases around <;> simp [Frame.closing?]

theorem step_closes (hd : d = .standard) (e : Extraction) (name t raw : Text) (bs : List Block)
    (cs : List Nat) :
    ((e.enter name).extend t bs cs).step d (.mark raw (.closes name)) =
      if e.names name || bs.any (·.name = name) then .error (.duplicateBlock name)
      else .ok (e.extend (Markup.token (childName name))
        (bs ++ [{ name := name, content := t, children := cs }])
        [e.closed.length + bs.length + 1]) := by
  subst hd
  have hclosing : ((e.enter name).extend t bs cs).closing? name =
      some (⟨name, Markup.opens name, t.reverse, cs⟩, e.opened) := by
    rw [extend_enter]
    exact closing?_self ⟨name, Markup.opens name, t.reverse, cs⟩ e.opened
  have hnames : ((e.enter name).extend t bs cs).names name =
      (e.names name || bs.any (·.name = name)) := names_extend (e.enter name) t bs cs name
  have hfinish : ((e.enter name).extend t bs cs).finish .standard
      ⟨name, Markup.opens name, t.reverse, cs⟩ e.opened =
        e.extend (Markup.token (childName name))
          (bs ++ [{ name := name, content := t, children := cs }])
          [e.closed.length + bs.length + 1] := by
    rw [extend_enter, finish, extend]
    simp only [Frame.content, List.reverse_reverse, List.length_append, List.length_singleton,
      List.append_assoc, Nat.add_assoc]
    rfl
  rw [step, hclosing]
  simp only [hnames, hfinish]

def Fresh (e : Extraction) (names : List Text) : Prop :=
  names.Nodup ∧ ∀ m ∈ names, ¬ e.names m = true

theorem fresh_enter (e : Extraction) (name : Text) (names : List Text) :
    (e.enter name).Fresh names ↔ e.Fresh names := Iff.rfl

def finished (e : Extraction) (name : Text) (body : Page) : Extraction :=
  e.extend (Markup.token (childName name))
    (body.closed e.closed.length ++ [body.asBlock e.closed.length name])
    [e.closed.length + body.names.length + 1]

theorem names_finished (e : Extraction) (name : Text) (body : Page) (m : Text) :
    (e.finished name body).names m = true ↔ e.names m = true ∨ m ∈ body.names ∨ m = name := by
  rw [finished, names_extend, List.any_append, Page.any_closed]
  simp only [Page.asBlock, List.any_cons, List.any_nil, Bool.or_false, Bool.or_eq_true,
    decide_eq_true_eq, @eq_comm Text name m]

theorem fresh_block {e : Extraction} {name : Text} {body rest : Page} :
    e.Fresh (body.names ++ name :: rest.names) ↔
      e.Fresh body.names ∧ (¬ e.names name = true ∧ name ∉ body.names) ∧
        (e.finished name body).Fresh rest.names := by
  simp only [Fresh, List.nodup_append, List.nodup_cons, List.mem_append, List.mem_cons,
    names_finished, not_or]
  constructor
  · intro ⟨⟨hb, ⟨hn, hr⟩, hdisj⟩, hall⟩
    refine ⟨⟨hb, fun m hm => hall m (.inl hm)⟩, ⟨hall name (.inr (.inl rfl)), ?_⟩, hr, ?_⟩
    · intro hm
      exact hdisj name hm name (.inl rfl) rfl
    · intro m hm
      refine ⟨hall m (.inr (.inr hm)), fun hbad => hdisj m hbad m (.inr hm) rfl, ?_⟩
      rintro rfl
      exact hn hm
  · intro ⟨⟨hb, hball⟩, ⟨hname, hnb⟩, hr, hrall⟩
    refine ⟨⟨hb, ⟨fun hm => (hrall name hm).2.2 rfl, hr⟩, ?_⟩, ?_⟩
    · intro x hx y hy hxy
      subst hxy
      rcases hy with rfl | hy
      · exact hnb hx
      · exact (hrall x hy).2.1 hx
    · intro m hm
      rcases hm with hm | rfl | hm
      · exact hball m hm
      · exact hname
      · exact (hrall m hm).1

open Markup (Edge edge_tag edge_token edge_filter edge_call)

theorem edge_closes (name t : Text) : Edge (Markup.closes name ++ t) := by
  rw [Markup.closes, List.append_assoc]
  exact edge_tag _

theorem edge_opens (name t : Text) : Edge (Markup.opens name ++ t) := by
  rw [Markup.opens, List.append_assoc]
  exact edge_tag _

theorem run_item {t item rest : Text} (ht : Page.plainText t = true)
    (hi : Text.Clear Tag.opening item rest) (hedge : Edge (item ++ rest)) (e : Extraction) :
    (Tag.pieces (t ++ (item ++ rest))).foldlM (step d) e =
      (Tag.pieces rest).foldlM (step d) (e.extend (t ++ item) [] []) := by
  rw [run_clear (Markup.clear_plainText ht hedge), run_clear hi, extend_extend]
  rfl

theorem run_block (hd : d = .standard) {t name : Text} {body : Page} {rest : Text}
    (ht : Page.plainText t = true) (hn : Page.isBlockName name = true) (e : Extraction)
    (hbody : (Tag.pieces (body.print ++ (Markup.closes name ++ rest))).foldlM (step d)
        ((e.extend t [] []).enter name) =
      (Tag.pieces (Markup.closes name ++ rest)).foldlM (step d)
        (((e.extend t [] []).enter name).extend body.surface (body.closed e.closed.length)
          (body.kids e.closed.length))) :
    (Tag.pieces (t ++ (Markup.opens name ++ (body.print ++ (Markup.closes name ++ rest))))).foldlM
        (step d) e =
      if e.names name ∨ name ∈ body.names then .error (.duplicateBlock name)
      else (Tag.pieces rest).foldlM (step d) ((e.extend t [] []).finished name body) := by
  have hempty : (e.extend t [] []).closed = e.closed := by rw [closed_extend, List.append_nil]
  have hnames : (e.extend t [] []).names name = e.names name := by
    rw [names_extend, List.any_nil, Bool.or_false]
  rw [run_clear (Markup.clear_plainText ht (edge_opens _ _)), run_opens hn, hbody,
    Tag.pieces_closes hn, List.foldlM_cons, step_closes hd, hnames, Page.any_closed]
  by_cases hbad : e.names name = true ∨ name ∈ body.names
  · rw [if_pos hbad, if_pos (by simpa using hbad)]
    rfl
  · rw [if_neg hbad, if_neg (by simpa using hbad), finished, Page.length_closed, hempty]
    rfl

theorem run_page (hd : d = .standard) (p : Page) (hp : p.clean = true) (e : Extraction)
    {tail : Text} (he : Edge tail) :
    (e.Fresh p.names → (Tag.pieces (p.print ++ tail)).foldlM (step d) e =
      (Tag.pieces tail).foldlM (step d)
        (e.extend p.surface (p.closed e.closed.length) (p.kids e.closed.length))) ∧
    (¬ e.Fresh p.names → ∃ name,
      (Tag.pieces (p.print ++ tail)).foldlM (step d) e = .error (.duplicateBlock name)) := by
  have hempty : ∀ (e : Extraction) t, (e.extend t [] []).closed.length = e.closed.length := by
    intro e t
    rw [closed_extend, List.append_nil]
  have hfresh : ∀ (e : Extraction) t names, (e.extend t [] []).Fresh names ↔ e.Fresh names := by
    intro e t names
    simp only [Fresh, names_extend, List.any_nil, Bool.or_false]
  have hcomp : ∀ (e : Extraction) t u bs cs,
      (e.extend t [] []).extend u bs cs = e.extend (t ++ u) bs cs := by
    intro e t u bs cs
    rw [extend_extend, List.nil_append, List.nil_append]
  induction p generalizing e tail with
  | last t =>
    refine ⟨fun _ => run_clear (Markup.clear_plainText hp he) e, ?_⟩
    intro hbad
    exact absurd ⟨List.nodup_nil, by simp [Page.names]⟩ hbad
  | placeholder t name rest ih =>
    simp only [Page.clean, Bool.and_eq_true] at hp
    have hrest := ih hp.2 (e.extend (t ++ Markup.token name) [] []) he
    rw [Page.print, List.append_assoc, List.append_assoc,
      run_item hp.1.1 (Markup.clear_token hp.1.2 _) (edge_token _ _)]
    rw [hempty, hfresh, hcomp] at hrest
    rw [Page.surface, ← List.append_assoc]
    exact hrest
  | filtered t name f rest ih =>
    simp only [Page.clean, Bool.and_eq_true] at hp
    have hrest := ih hp.2 (e.extend (t ++ Markup.filter name f) [] []) he
    rw [Page.print, List.append_assoc, List.append_assoc,
      run_item hp.1.1.1 (Markup.clear_filter hp.1.1.2 hp.1.2 _) (edge_filter _ _ _)]
    rw [hempty, hfresh, hcomp] at hrest
    rw [Page.surface, ← List.append_assoc]
    exact hrest
  | call t name args rest ih =>
    simp only [Page.clean, Bool.and_eq_true, List.all_eq_true] at hp
    have hrest := ih hp.2 (e.extend (t ++ Markup.call name args) [] []) he
    rw [Page.print, List.append_assoc, List.append_assoc,
      run_item hp.1.1.1 (Markup.clear_call hp.1.1.2 hp.1.2 _) (edge_call _ _ _)]
    rw [hempty, hfresh, hcomp] at hrest
    rw [Page.surface, ← List.append_assoc]
    exact hrest
  | block t name body rest ihb ih =>
    simp only [Page.clean, Bool.and_eq_true] at hp
    have hbody := ihb hp.1.2 ((e.extend t [] []).enter name)
      (edge_closes name (rest.print ++ tail))
    have hlen : ((e.extend t [] []).enter name).closed.length = e.closed.length := hempty e t
    have hfin : (e.extend t [] []).finished name body =
        e.extend (t ++ Markup.token (childName name))
          (body.closed e.closed.length ++ [body.asBlock e.closed.length name])
          [e.closed.length + body.names.length + 1] := by
      rw [finished, hempty, hcomp]
    have hsrc : (Page.block t name body rest).print ++ tail =
        t ++ (Markup.opens name ++ (body.print ++ (Markup.closes name ++ (rest.print ++ tail)))) := by
      simp only [Page.print, List.append_assoc]
    have hrest := ih hp.2 ((e.extend t [] []).finished name body) he
    have hdone : ((e.extend t [] []).finished name body).closed.length =
        e.closed.length + body.names.length + 1 := by
      rw [hfin, closed_extend]
      simp only [List.length_append, Page.length_closed, List.length_singleton, Nat.add_assoc]
    rw [hsrc]
    rw [fresh_enter, hlen] at hbody
    rw [hdone, hfin, extend_extend] at hrest
    rw [Page.names, ← hfresh e t, fresh_block, hfin]
    -- The body has a name twice, or the block has a name that was used, or it is up to the rest.
    by_cases hb : (e.extend t [] []).Fresh body.names
    · have hrun := run_block hd hp.1.1.1 hp.1.1.2 e (hbody.1 hb)
      rw [hfin] at hrun
      rw [hrun]
      by_cases hname : e.names name = true ∨ name ∈ body.names
      · rw [if_pos hname]
        refine ⟨?_, fun _ => ⟨name, rfl⟩⟩
        rintro ⟨-, ⟨h₁, h₂⟩, -⟩
        rw [names_extend, List.any_nil, Bool.or_false] at h₁
        rcases hname with hname | hname
        · exact absurd hname h₁
        · exact absurd hname h₂
      · rw [if_neg hname]
        rw [not_or] at hname
        have hname' : ¬ (e.extend t [] []).names name = true ∧ name ∉ body.names := by
          rw [names_extend, List.any_nil, Bool.or_false]
          exact hname
        constructor
        · rintro ⟨-, -, hr⟩
          rw [hrest.1 hr, Page.surface, Page.closed, Page.kids]
          simp only [List.append_assoc, List.singleton_append]
        · intro hbad
          exact hrest.2 fun hr => hbad ⟨hb, hname', hr⟩
    · refine ⟨fun h => absurd h.1 hb, fun _ => ?_⟩
      obtain ⟨dup, hdup⟩ := hbody.2 hb
      refine ⟨dup, ?_⟩
      rw [run_clear (Markup.clear_plainText hp.1.1.1 (edge_opens _ _)), run_opens hp.1.1.2]
      exact hdup

end Extraction

namespace Fragment

def ofPage (top : Text) (p : Page) : Fragment := p.asBlock 0 top :: p.closed 0

theorem names_ofPage (top : Text) (p : Page) : (ofPage top p).map (·.name) = top :: p.names := by
  rw [ofPage, List.map_cons, Page.names_closed]
  rfl

theorem extract_page (top : Text) {p : Page} (hp : p.clean = true) :
    ((top :: p.names).Nodup → extract .standard top p.print = .ok (withParents (ofPage top p))) ∧
    (¬ (top :: p.names).Nodup →
      ∃ name, extract .standard top p.print = .error (.duplicateBlock name)) := by
  have hrun := Extraction.run_page rfl p hp (Extraction.start top) Markup.edge_nil
  have hfresh : (Extraction.start top).Fresh p.names ↔ (top :: p.names).Nodup := by
    simp only [Extraction.Fresh, Extraction.names, Extraction.start, List.any_nil, Bool.or_false,
      List.nodup_cons]
    constructor
    · intro ⟨hn, hall⟩
      exact ⟨fun hm => hall top hm (decide_eq_true rfl), hn⟩
    · intro ⟨htop, hn⟩
      refine ⟨hn, ?_⟩
      intro m hm heq
      rw [← of_decide_eq_true heq] at hm
      exact htop hm
  rw [List.append_nil, hfresh] at hrun
  constructor
  · intro hn
    rw [extract, hrun.1 hn]
    simp [Tag.pieces, Extraction.extend, Extraction.onInner, Extraction.start, Extraction.blocks,
      Extraction.whole, Frame.write, ofPage, Page.asBlock, Frame.content, pure, Except.pure, bind,
      Except.bind]
  · intro hn
    obtain ⟨name, herr⟩ := hrun.2 hn
    refine ⟨name, ?_⟩
    rw [extract, herr]
    rfl

end Fragment

end BlockTemplate
