import BlockTemplate.Proofs.Call.Memo
import BlockTemplate.Proofs.Document.Comments

/-!
# Documents with inclusions

A draft is a document in which files are still to be put in. Compiling takes its inclusions out: what
is compiled is the document in which a numbered placeholder stands for each of them.
-/

namespace BlockTemplate

/-- A sequence of nodes of template source, inclusions of other files among them. -/
inductive Draft where
  | nil
  | text (t : Text) (rest : Draft)
  | placeholder (name : Text) (rest : Draft)
  | filtered (name filter : Text) (rest : Draft)
  | call (name : Text) (args : List Text) (rest : Draft)
  | inclusion (path : Text) (rest : Draft)
  | block (name : Text) (body rest : Draft)
  deriving Repr, DecidableEq

def Markup.inclusion (path : Text) : Text :=
  Tag.opening ++ (" INCLUDE ".toList ++ (path ++ " -->".toList))

def Inclusion.isPath (path : Text) : Bool := path ≠ [] && path.all (!Text.isBlank ·)

def Inclusion.number : (next : Nat) → List Text → List Inclusion
  | _, [] => []
  | next, path :: paths => ⟨numbered next, path⟩ :: number (next + 1) paths

namespace Draft

def print : Draft → Text
  | .nil => []
  | .text t rest => t ++ rest.print
  | .placeholder name rest => Markup.token name ++ rest.print
  | .filtered name f rest => Markup.filter name f ++ rest.print
  | .call name args rest => Markup.call name args ++ rest.print
  | .inclusion path rest => Markup.inclusion path ++ rest.print
  | .block name body rest =>
    Markup.opens name ++ (body.print ++ (Markup.closes name ++ rest.print))

def paths : Draft → List Text
  | .nil => []
  | .text _ rest => rest.paths
  | .placeholder _ rest => rest.paths
  | .filtered _ _ rest => rest.paths
  | .call _ _ rest => rest.paths
  | .inclusion path rest => path :: rest.paths
  | .block _ body rest => body.paths ++ rest.paths

def marked : (next : Nat) → Draft → Document
  | _, .nil => .nil
  | next, .text t rest => .text t (rest.marked next)
  | next, .placeholder name rest => .placeholder name (rest.marked next)
  | next, .filtered name f rest => .filtered name f (rest.marked next)
  | next, .call name args rest => .call name args (rest.marked next)
  | next, .inclusion _ rest => .placeholder (Inclusion.numbered next) (rest.marked (next + 1))
  | next, .block name body rest =>
    .block name (body.marked next) (rest.marked (next + body.paths.length))

def cut : Draft → List (Piece Tag)
  | .nil => []
  | .text t rest => t.map .char ++ rest.cut
  | .placeholder name rest => (Markup.token name).map .char ++ rest.cut
  | .filtered name f rest => (Markup.filter name f).map .char ++ rest.cut
  | .call name args rest => (Markup.call name args).map .char ++ rest.cut
  | .inclusion path rest => .mark (Markup.inclusion path) (.includes path) :: rest.cut
  | .block name body rest =>
    .mark (Markup.opens name) (.opens name) ::
      (body.cut ++ .mark (Markup.closes name) (.closes name) :: rest.cut)

end Draft

namespace Tag

open Text (expect expect_append)

theorem read_keyword_includes (t : Text) :
    Keyword.read ("INCLUDE".toList ++ t) = some (.includes, t) := by
  have h₁ : expect "BEGIN".toList ("INCLUDE".toList ++ t) = none := rfl
  have h₂ : expect "END".toList ("INCLUDE".toList ++ t) = none := rfl
  have h₃ : expect "COMMENT".toList ("INCLUDE".toList ++ t) = none := rfl
  have h₄ : expect "/COMMENT".toList ("INCLUDE".toList ++ t) = none := rfl
  rw [Keyword.read, h₁, h₂, h₃, h₄]
  rfl

theorem read_includes {path : Text} (hp : Inclusion.isPath path = true) (t : Text) :
    read (" INCLUDE ".toList ++ (path ++ (" -->".toList ++ t))) = some (.includes path, t) := by
  rw [Inclusion.isPath, Bool.and_eq_true, decide_eq_true_eq, List.all_eq_true] at hp
  have hpath : Text.readSome (!Text.isBlank ·) (path ++ ' ' :: ("-->".toList ++ t)) =
      some (path, ' ' :: ("-->".toList ++ t)) := by
    refine Text.readSome_append hp.1 hp.2 ?_
    intro c hc
    cases hc
    decide
  have hgap : readGap (' ' :: ("-->".toList ++ t)) = some ("-->".toList ++ t) := by
    refine readGap_space ?_
    intro c hc
    cases hc
    decide
  refine read_eq_some (readGap_space ?_) (read_keyword_includes _) (readGap_space ?_) ?_
    (expect_append _ _)
  · intro c hc
    cases hc
    decide
  · obtain ⟨x, xs, rfl⟩ := List.exists_cons_of_ne_nil hp.1
    intro c hc
    cases hc
    exact Text.isTagBlank_of_isBlank (by simpa using hp.2 x List.mem_cons_self)
  · have hoperand : readOperand (!Text.isBlank ·) (path ++ ' ' :: ("-->".toList ++ t)) =
        some (path, "-->".toList ++ t) := by
      simp only [readOperand, hpath, hgap, Option.bind_eq_bind, Option.bind_some, Option.pure_def]
    rw [Keyword.complete]
    exact congrArg (Option.map _) hoperand

theorem pieces_inclusion {path : Text} (hp : Inclusion.isPath path = true) (t : Text) :
    pieces (Markup.inclusion path ++ t) =
      .mark (Markup.inclusion path) (.includes path) :: pieces t := by
  rw [Markup.inclusion, List.append_assoc]
  refine Text.pieces_of_read (by decide) ?_
  rw [List.append_assoc, List.append_assoc]
  exact read_includes hp t

theorem pieces_append {a rest : Text} (h : Text.Clear opening a rest) :
    pieces (a ++ rest) = a.map .char ++ pieces rest := Text.pieces_append_of_clear h

end Tag

namespace Inclusion

theorem isVariableName_numbered (n : Nat) : Page.isVariableName (numbered n) = true := by
  have hall : (numbered n).all Text.isVariableChar = true := List.all_eq_true.mpr fun c hc =>
    Text.isVariableChar_of_isBlockChar (isBlockChar_numbered n c hc)
  have hne : numbered n ≠ [] := List.cons_ne_nil _ _
  rw [Page.isVariableName, hall, Bool.and_true, decide_eq_true_eq]
  exact hne

theorem number_append (next : Nat) (paths more : List Text) :
    number next (paths ++ more) = number next paths ++ number (next + paths.length) more := by
  induction paths generalizing next with
  | nil => rfl
  | cons path paths ih =>
    have hnext : next + 1 + paths.length = next + (path :: paths).length := by
      rw [List.length_cons]
      omega
    rw [List.cons_append, number, ih, hnext, number, List.cons_append]

theorem length_number (next : Nat) (paths : List Text) :
    (number next paths).length = paths.length := by
  induction paths generalizing next with
  | nil => rfl
  | cons path paths ih => rw [number, List.length_cons, ih, List.length_cons]

theorem mem_number {next : Nat} {paths : List Text} {i : Inclusion} (h : i ∈ number next paths) :
    i.path ∈ paths ∧ ∃ k, next ≤ k ∧ k < next + paths.length ∧ i.name = numbered k := by
  induction paths generalizing next with
  | nil => cases h
  | cons path paths ih =>
    rw [List.length_cons]
    rcases List.mem_cons.mp h with rfl | h
    · exact ⟨List.mem_cons_self, next, Nat.le_refl _, by omega, rfl⟩
    · obtain ⟨hp, k, hle, hlt, hk⟩ := ih h
      exact ⟨List.mem_cons_of_mem _ hp, k, by omega, by omega, hk⟩

theorem nodup_number (next : Nat) (paths : List Text) : ((number next paths).map (·.name)).Nodup := by
  induction paths generalizing next with
  | nil => exact List.nodup_nil
  | cons path paths ih =>
    refine List.nodup_cons.mpr ⟨?_, ih (next + 1)⟩
    intro hm
    obtain ⟨i, hi, hname⟩ := List.mem_map.mp hm
    obtain ⟨-, k, hle, -, hk⟩ := mem_number hi
    have heq := numbered_inj (hk.symm.trans hname)
    omega

theorem mark_chars (d : Dialect) (next : Nat) (a : Text) (ps : List (Piece Tag)) :
    mark d next (a.map .char ++ ps) = (a ++ (mark d next ps).1, (mark d next ps).2) := by
  induction a with
  | nil => rfl
  | cons c a ih =>
    rw [List.map_cons, List.cons_append, mark, ih]
    · rfl
    · simp

end Inclusion

namespace Draft

open Markup (Edge edge_nil edge_tag edge_token edge_filter edge_call)

theorem pieces_print (d : Draft) (next : Nat) (t tail : Text)
    (hc : ((d.marked next).page t).clean = true)
    (hp : ∀ path ∈ d.paths, Inclusion.isPath path = true) (he : Edge tail) :
    Tag.pieces (t ++ (d.print ++ tail)) = t.map .char ++ (d.cut ++ Tag.pieces tail) := by
  induction d generalizing next t tail with
  | nil => exact Tag.pieces_append (Markup.clear_plainText hc he)
  | text u rest ih =>
    have hrest := ih next (t ++ u) tail hc hp he
    rw [print, cut]
    simpa only [List.map_append, List.append_assoc] using hrest
  | placeholder name rest ih =>
    simp only [marked, Document.page, Page.clean, Bool.and_eq_true] at hc
    have hrest := ih next [] tail hc.2 hp he
    simp only [List.nil_append, List.map_nil] at hrest
    rw [print, cut, List.append_assoc, List.append_assoc,
      Tag.pieces_append (Markup.clear_plainText hc.1.1 (edge_token _ _)),
      Tag.pieces_append (Markup.clear_token hc.1.2 _), hrest]
  | filtered name f rest ih =>
    simp only [marked, Document.page, Page.clean, Bool.and_eq_true] at hc
    have hrest := ih next [] tail hc.2 hp he
    simp only [List.nil_append, List.map_nil] at hrest
    rw [print, cut, List.append_assoc, List.append_assoc,
      Tag.pieces_append (Markup.clear_plainText hc.1.1.1 (edge_filter _ _ _)),
      Tag.pieces_append (Markup.clear_filter hc.1.1.2 hc.1.2 _), hrest]
  | call name args rest ih =>
    simp only [marked, Document.page, Page.clean, Bool.and_eq_true, List.all_eq_true] at hc
    have hrest := ih next [] tail hc.2 hp he
    simp only [List.nil_append, List.map_nil] at hrest
    rw [print, cut, List.append_assoc, List.append_assoc,
      Tag.pieces_append (Markup.clear_plainText hc.1.1.1 (edge_call _ _ _)),
      Tag.pieces_append (Markup.clear_call hc.1.1.2 hc.1.2 _), hrest]
  | inclusion path rest ih =>
    simp only [marked, Document.page, Page.clean, Bool.and_eq_true] at hc
    have hrest := ih (next + 1) [] tail hc.2 (fun q hq => hp q (List.mem_cons_of_mem _ hq)) he
    simp only [List.nil_append, List.map_nil] at hrest
    have hedge : Edge (Markup.inclusion path ++ (rest.print ++ tail)) := by
      rw [Markup.inclusion, List.append_assoc]
      exact edge_tag _
    rw [print, cut, List.append_assoc, List.cons_append,
      Tag.pieces_append (Markup.clear_plainText hc.1.1 hedge),
      Tag.pieces_inclusion (hp path List.mem_cons_self), hrest]
  | block name body rest ihb ih =>
    simp only [marked, Document.page, Page.clean, Bool.and_eq_true] at hc
    rw [paths, List.forall_mem_append] at hp
    have hrest := ih (next + body.paths.length) [] tail hc.2 hp.2 he
    have hopens : Edge (Markup.opens name ++
        (body.print ++ (Markup.closes name ++ (rest.print ++ tail)))) := by
      rw [Markup.opens, List.append_assoc]
      exact edge_tag _
    have hcloses : Edge (Markup.closes name ++ (rest.print ++ tail)) := by
      rw [Markup.closes, List.append_assoc]
      exact edge_tag _
    have hbody := ihb next [] (Markup.closes name ++ (rest.print ++ tail)) hc.1.2 hp.1 hcloses
    simp only [List.nil_append, List.map_nil] at hrest hbody
    rw [Tag.pieces_closes hc.1.1.2, hrest] at hbody
    rw [print, cut]
    simp only [List.append_assoc, List.cons_append]
    rw [Tag.pieces_append (Markup.clear_plainText hc.1.1.1 hopens), Tag.pieces_opens hc.1.1.2, hbody]

theorem outside_cut (d : Draft) (ps : List (Piece Tag)) :
    Tag.outside (d.cut ++ ps) = d.print ++ Tag.outside ps := by
  induction d generalizing ps with
  | nil => rfl
  | text t rest ih => rw [cut, print, List.append_assoc, Tag.outside_chars, ih, List.append_assoc]
  | placeholder name rest ih =>
    rw [cut, print, List.append_assoc, Tag.outside_chars, ih, List.append_assoc]
  | filtered name f rest ih =>
    rw [cut, print, List.append_assoc, Tag.outside_chars, ih, List.append_assoc]
  | call name args rest ih =>
    rw [cut, print, List.append_assoc, Tag.outside_chars, ih, List.append_assoc]
  | inclusion path rest ih =>
    rw [cut, print, List.cons_append, Tag.outside, ih, Piece.raw, List.append_assoc]
    simp
  | block name body rest ihb ih =>
    rw [cut, print, List.cons_append, List.append_assoc, List.cons_append, Tag.outside, ihb,
      Tag.outside, ih, Piece.raw, Piece.raw]
    · simp only [List.append_assoc]
    · simp
    · simp

theorem mark_cut (d : Draft) (next : Nat) (ps : List (Piece Tag)) :
    Inclusion.mark .standard next (d.cut ++ ps) =
      ((d.marked next).print ++ (Inclusion.mark .standard (next + d.paths.length) ps).1,
        Inclusion.number next d.paths ++
          (Inclusion.mark .standard (next + d.paths.length) ps).2) := by
  induction d generalizing next ps with
  | nil => rfl
  | text t rest ih =>
    rw [cut, List.append_assoc, Inclusion.mark_chars, ih, marked, Document.print, paths,
      List.append_assoc]
  | placeholder name rest ih =>
    rw [cut, List.append_assoc, Inclusion.mark_chars, ih, marked, Document.print, paths,
      List.append_assoc]
  | filtered name f rest ih =>
    rw [cut, List.append_assoc, Inclusion.mark_chars, ih, marked, Document.print, paths,
      List.append_assoc]
  | call name args rest ih =>
    rw [cut, List.append_assoc, Inclusion.mark_chars, ih, marked, Document.print, paths,
      List.append_assoc]
  | inclusion path rest ih =>
    have hnext : next + 1 + rest.paths.length = next + (path :: rest.paths).length := by
      rw [List.length_cons]
      omega
    rw [cut, List.cons_append, Inclusion.mark, ih, hnext, marked, Document.print, paths,
      Inclusion.number, List.append_assoc, List.cons_append]
    rfl
  | block name body rest ihb ih =>
    have hnext : next + body.paths.length + rest.paths.length =
        next + (body.paths ++ rest.paths).length := by
      rw [List.length_append]
      omega
    rw [cut, List.cons_append, List.append_assoc, List.cons_append, Inclusion.mark, ihb,
      Inclusion.mark, ih, hnext, marked, Document.print, paths, Inclusion.number_append, Piece.raw,
      Piece.raw]
    · simp only [List.append_assoc]
    · simp
    · simp

theorem extract_print {d : Draft} (next : Nat) (hc : ((d.marked next).page []).clean = true)
    (hp : ∀ path ∈ d.paths, Inclusion.isPath path = true) :
    Inclusion.extract .standard next d.print =
      ((d.marked next).print, Inclusion.number next d.paths) := by
  have hpieces := d.pieces_print next [] [] hc hp edge_nil
  simp only [List.append_nil, List.nil_append, List.map_nil] at hpieces
  have hcut : Tag.pieces d.print = d.cut := hpieces.trans (List.append_nil _)
  have hstrip := d.outside_cut []
  have hmark := d.mark_cut next []
  rw [List.append_nil, Tag.outside, List.append_nil] at hstrip
  rw [List.append_nil, Inclusion.mark, List.append_nil, List.append_nil] at hmark
  rw [Inclusion.extract, Tag.stripComments, hcut, hstrip, hcut, hmark]

end Draft

end BlockTemplate
