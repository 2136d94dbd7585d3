import BlockTemplate.Proofs.Document.Compile
import BlockTemplate.Proofs.Document.Splice

/-!
# Texts with marks

A text with marks in it is given by the text before the first mark and by each mark with the text
behind it. Between two marks there is one text, so nothing is given in two ways.
-/

namespace BlockTemplate

/-- The text before the first mark, and each mark with the text behind it. -/
structure Strand (α : Type) where
  lead : Text
  rest : List (α × Text)
  deriving Repr, DecidableEq

namespace Strand

variable {α : Type}

def marks (s : Strand α) : List α := s.rest.map (·.1)

def texts (s : Strand α) : List Text := s.lead :: s.rest.map (·.2)

def writeRest (f : α → Text) (rest : List (α × Text)) : Text := rest.flatMap fun x => f x.1 ++ x.2

def write (f : α → Text) (s : Strand α) : Text := s.lead ++ writeRest f s.rest

theorem writeRest_cons (f : α → Text) (x : α × Text) (rest : List (α × Text)) :
    writeRest f (x :: rest) = f x.1 ++ (x.2 ++ writeRest f rest) := by
  rw [writeRest, List.flatMap_cons, List.append_assoc]
  rfl

variable {s : Strand α} {f g : α → Text}

theorem write_congr (h : ∀ m ∈ s.marks, f m = g m) : s.write f = s.write g := by
  have hrest : writeRest f s.rest = writeRest g s.rest := by
    refine List.flatMap_congr ?_
    intro x hx
    rw [h x.1 (List.mem_map_of_mem hx)]
  rw [write, write, hrest]

theorem not_mem_write {c : Char} (ht : ∀ t ∈ s.texts, c ∉ t) (hm : ∀ m ∈ s.marks, c ∉ f m) :
    c ∉ s.write f := by
  intro hc
  rcases List.mem_append.mp hc with hc | hc
  · exact ht s.lead List.mem_cons_self hc
  · obtain ⟨x, hx, hc⟩ := List.mem_flatMap.mp hc
    rcases List.mem_append.mp hc with hc | hc
    · exact hm x.1 (List.mem_map_of_mem hx) hc
    · exact ht x.2 (List.mem_cons_of_mem _ (List.mem_map_of_mem hx)) hc

theorem splice_write {α : Type} {s : Strand α} {name : α → Text}
    (ht : ∀ t ∈ s.texts, '\x7b' ∉ t) (hn : ∀ m ∈ s.marks, Page.isVariableName (name m) = true)
    (f : Text → Option Text) :
    Dialect.standard.splice f (s.write fun m => Markup.token (name m)) =
      s.write fun m => (f (name m)).getD (Markup.token (name m)) := by
  have hrest : ∀ rest : List (α × Text), (∀ x ∈ rest, '\x7b' ∉ x.2) →
      (∀ x ∈ rest, Page.isVariableName (name x.1) = true) →
      Dialect.standard.splice f (writeRest (fun m => Markup.token (name m)) rest) =
        writeRest (fun m => (f (name m)).getD (Markup.token (name m))) rest := by
    intro rest
    induction rest with
    | nil => intros; rfl
    | cons x rest ih =>
      intro hbrace hname
      rw [writeRest_cons, writeRest_cons, Page.splice_token (hname x List.mem_cons_self),
        Page.splice_append (hbrace x List.mem_cons_self),
        ih (fun y hy => hbrace y (List.mem_cons_of_mem x hy))
          (fun y hy => hname y (List.mem_cons_of_mem x hy))]
  rw [write, write, Page.splice_append (ht s.lead List.mem_cons_self), hrest]
  · exact fun x hx => ht x.2 (List.mem_cons_of_mem _ (List.mem_map_of_mem hx))
  · exact fun x hx => hn x.1 (List.mem_map_of_mem hx)

def restDocument : List (Text × Text) → Document
  | [] => .nil
  | (name, t) :: rest => .placeholder name (.text t (restDocument rest))

def document (s : Strand Text) : Document := .text s.lead (restDocument s.rest)

theorem print_restDocument (rest : List (Text × Text)) :
    (restDocument rest).print = writeRest Markup.token rest := by
  induction rest with
  | nil => rfl
  | cons x rest ih => rw [restDocument, Document.print, Document.print, ih, writeRest_cons]

theorem print_document (s : Strand Text) : s.document.print = s.write Markup.token := by
  rw [document, Document.print, print_restDocument, write]

structure Plain (s : Strand Text) : Prop where
  texts : ∀ t ∈ s.texts, Page.plainText t = true
  names : ∀ x ∈ s.marks, Page.isVariableName x = true ∧ CallId.isMemo x = false

end Strand

structure Page.Flat (p : Page) (content : Text) (vars : List Text) : Prop where
  content : ∀ number, p.content number = content
  vars : p.variableNames = vars
  calls : p.filters = [] ∧ p.inlineCalls = [] ∧ p.innerCalls = []
  names : p.names = [] ∧ p.childNames = []
  kids : ∀ k, p.kids k = []
  within : p.unreservedWithin = true
  shown : ∀ number os, p.Shown number os → os = []

namespace Strand

theorem flat_rest (rest : List (Text × Text)) (t : Text) :
    ((restDocument rest).page t).Flat (t ++ writeRest Markup.token rest) (rest.map (·.1)) := by
  induction rest generalizing t with
  | nil =>
    exact ⟨fun _ => (List.append_nil t).symm, rfl, ⟨rfl, rfl, rfl⟩, ⟨rfl, rfl⟩, fun _ => rfl, rfl,
      fun _ _ h => h⟩
  | cons x rest ih =>
    have h := ih x.2
    refine ⟨?_, congrArg (x.1 :: ·) h.vars, h.calls, h.names, h.kids, h.within, h.shown⟩
    intro number
    rw [writeRest_cons, ← h.content number]
    rfl

theorem flat_document (s : Strand Text) :
    (s.document.page []).Flat (s.write Markup.token) s.marks := flat_rest s.rest s.lead

theorem clean_rest {rest : List (Text × Text)} {t : Text} (ht : Page.plainText t = true)
    (h : ∀ x ∈ rest, Page.isVariableName x.1 = true ∧ Page.plainText x.2 = true) :
    ((restDocument rest).page t).clean = true := by
  induction rest generalizing t with
  | nil => exact ht
  | cons x rest ih =>
    obtain ⟨hname, htext⟩ := h x List.mem_cons_self
    have hrest := ih htext fun y hy => h y (List.mem_cons_of_mem x hy)
    change (Page.plainText t && Page.isVariableName x.1 &&
      ((restDocument rest).page x.2).clean) = true
    rw [ht, hname, hrest]
    rfl

theorem commentsEnd_document (s : Strand Text) : s.document.commentsEnd = true := by
  have hrest : ∀ rest : List (Text × Text), (restDocument rest).commentsEnd = true := by
    intro rest
    induction rest with
    | nil => rfl
    | cons x rest ih => exact ih
  exact hrest s.rest

variable {s : Strand Text}

theorem Plain.clean (h : s.Plain) : (s.document.page []).clean = true := by
  refine clean_rest (h.texts s.lead List.mem_cons_self) ?_
  intro x hx
  exact ⟨(h.names x.1 (List.mem_map_of_mem hx)).1,
    h.texts x.2 (List.mem_cons_of_mem _ (List.mem_map_of_mem hx))⟩

theorem Plain.unreserved (h : s.Plain) : (s.document.page []).unreserved = true := by
  have hflat := s.flat_document
  rw [Page.unreserved, hflat.vars, hflat.names.2, List.all_eq_true]
  intro x hx
  rw [Listing.reserved, (h.names x hx).2]
  rfl

theorem Plain.document (h : s.Plain) : s.document.Plain where
  page := ⟨h.clean, h.unreserved, s.flat_document.within⟩
  comments := s.commentsEnd_document

theorem Plain.brace (h : s.Plain) : ∀ t ∈ s.texts, '\x7b' ∉ t := fun t ht =>
  (Markup.plainText_spec (h.texts t ht)).1

end Strand

theorem Fragment.compile_strand {s : Strand Text} (h : s.Plain) {t : Tree} {top : Text}
    {replaced : Option BlockId}
    (hfree : t.contains top = true → top ∈ leavingNames t replaced) (hd : t.calls.Distinct) :
    compile .standard t top (s.write Markup.token) replaced =
      (.ok [{ name := top, content := s.write Markup.token, vars := s.marks.foldl addNew [] }],
        t.calls) := by
  have hflat := s.flat_document
  have hcalls : (s.document.page []).calls = [] := by
    rw [Page.calls, hflat.calls.1, hflat.calls.2.1]
    rfl
  have hlayout : (s.document.page []).layout 0 = [] := by
    refine List.eq_nil_of_length_eq_zero ?_
    rw [Page.length_layout, hflat.names.1]
    rfl
  have hnames : (top :: (s.document.page []).names).Nodup := by
    rw [hflat.names.1]
    exact List.nodup_singleton top
  have hcompile := compile_into h.document.page (Document.stripComments_print h.document) hnames
    (fun n hn => by
      rw [hflat.names.1, List.mem_singleton] at hn
      exact hn ▸ hfree) hd
  rw [s.print_document, hcalls, hflat.calls.2.2] at hcompile
  refine hcompile.trans ?_
  rw [filledAs, ← Page.map_fst_blocks, Page.blocks, hlayout]
  have hblock : ∀ number, fill number
      { (s.document.page []).asBlock 0 top with parent := none } (s.document.page []) =
      { name := top, content := s.write Markup.token, vars := s.marks.foldl addNew [] } := by
    intro number
    rw [fill, hflat.content, hflat.vars, hcalls, Page.asBlock, hflat.kids]
    rfl
  have hparent : withParents [(s.document.page []).asBlock 0 top] =
      [{ (s.document.page []).asBlock 0 top with parent := none }] := by
    have hkids : ((s.document.page []).asBlock 0 top).children = [] := hflat.kids 0
    simp [withParents, hkids]
  rw [List.map_cons, List.map_nil, hparent, List.zipWith_cons_cons, hblock]
  rfl

end BlockTemplate
