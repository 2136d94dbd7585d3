import BlockTemplate.Proofs.Document.Strand
import BlockTemplate.Proofs.Render.Ink
import BlockTemplate.Proofs.Template.Effect
import BlockTemplate.Proofs.Template.Render

/-!
# Repeated blocks

A block that is rendered once for each row of values collects the rows one after another. The output
of the root has them where the block stands, each with its own values.
-/

namespace BlockTemplate

/-- A page with one block in it, which is made of texts and placeholders. -/
structure RowPage where
  before : Text
  block : Text
  body : Strand Text
  after : Text
  deriving Repr, DecidableEq

abbrev Row := List (Text × Text)

namespace Row

def value (row : Row) (x : Text) : Text := ((Dict.ofList row).get? x).getD []

def Fills (row : Row) (body : Strand Text) : Prop :=
  ∀ x ∈ body.marks, ∃ v, (Dict.ofList row).get? x = some v ∧ '\x7b' ∉ v

def steps (block : Text) (row : Row) : List Operation :=
  row.map (fun x => .setLocals (some x.1) (.text x.2)) ++ [.render block]

end Row

namespace Dict

variable {κ α : Type} [Ranked κ] [DecidableEq κ]

theorem get?_foldl_insert_or (l : List (κ × α)) (d : Dict κ α) (k : κ) :
    (l.foldl (fun d e => d.insert e.1 e.2) d).get? k = ((ofList l).get? k).or (d.get? k) := by
  induction l generalizing d with
  | nil => rfl
  | cons e l ih =>
    have hlist : (ofList (e :: l)).get? k =
        ((ofList l).get? k).or (((empty : Dict κ α).insert e.1 e.2).get? k) := ih _
    rw [List.foldl_cons, ih, hlist, get?_insert, get?_insert, Option.or_assoc]
    by_cases hk : k = e.1
    · rw [if_pos hk, if_pos hk, Option.some_or]
    · rw [if_neg hk, if_neg hk, get?_empty, Option.none_or]

end Dict

namespace Template

variable {e : Engine} {t : Template}

theorem state_compile {source : Text} (h : compile e source = .ok t) : t.state = {} := by
  rw [compile, setTemplate] at h
  generalize Fragment.compile e.dialect .empty rootName source (some rootId) = r at h
  obtain ⟨r, calls⟩ := r
  cases r with
  | error fault => cases h
  | ok f =>
    cases h
    rfl

theorem output_renderAt (he : e.options.preserveData = false) (ht : t.tree.Sound) {id : BlockId}
    {b : Block} {cs : List Outline} (ho : t.tree.outline? id = some (.node id b cs))
    (hcalls : ∀ x ∈ (Outline.node id b cs).preorder, x.2.calls = []) (log : CallLog) :
    (t.renderAt e id log).2.1.state.output id =
      t.state.output id ++ (t.reference e id).text (.node id b cs) := by
  have hpre : t.tree.preorder id = (Outline.node id b cs).preorder := by
    rw [Tree.preorder, ho]
    rfl
  have hlive : ∃ c, t.tree.get? id = some c := by
    cases hc : t.tree.get? id with
    | some c => exact ⟨c, rfl⟩
    | none => rw [Tree.outline?_of_vacant hc] at ho; cases ho
  obtain ⟨c, hc⟩ := hlive
  have hnodup := Tree.nodup_preorder ht.tree hc
  rw [hpre] at hnodup
  have hrun := (Pass.run_refines (r := t.reference e id) he hpre hnodup hcalls t.tree.calls log).2.1
  rw [renderAt, ho]
  exact hrun

end Template

namespace RowPage

def source (p : RowPage) : Text :=
  p.before ++ (Markup.opens p.block ++ (p.body.write Markup.token ++
    (Markup.closes p.block ++ p.after)))

structure Plain (p : RowPage) : Prop where
  before : Page.plainText p.before = true
  after : Page.plainText p.after = true
  block : Page.isBlockName p.block = true
  named : p.block ≠ rootName
  body : p.body.Plain
  marked : p.body.marks ≠ []

/-- The body for each row in turn, its placeholders replaced by the values of the row. -/
def rowsText (p : RowPage) (rows : List Row) : Text := rows.flatMap fun row => p.body.write row.value

def document (p : RowPage) : Document :=
  .text p.before (.block p.block p.body.document (.text p.after .nil))

variable {p : RowPage}

theorem print_document (p : RowPage) : p.document.print = p.source := by
  have hbody := p.body.print_document
  have hrest : (Document.text p.after .nil).print = p.after := List.append_nil p.after
  rw [document, Document.print, Document.print, hbody, hrest, source]

theorem page_document (p : RowPage) :
    p.document.page [] = .block p.before p.block (p.body.document.page []) (.last p.after) := rfl

theorem Plain.document (h : p.Plain) : p.document.Plain where
  page := by
    rw [page_document]
    refine ⟨?_, rfl, ?_⟩
    · rw [Page.clean, h.before, h.block, h.body.clean, Page.clean, h.after]
      rfl
    · rw [Page.unreservedWithin, h.body.unreserved, p.body.flat_document.within]
      rfl
  comments := by
    have hend : p.document.commentsEnd = (p.body.document.commentsEnd && true) := rfl
    rw [hend, p.body.commentsEnd_document]
    rfl

theorem Plain.names (h : p.Plain) : (rootName :: p.document.names).Nodup := by
  have hnames : p.document.names = [p.block] := by
    have hbody : p.body.document.names = [] := by
      rw [← p.body.document.names_page [], p.body.flat_document.names.1]
    change p.body.document.names ++ p.block :: [] = [p.block]
    rw [hbody]
    rfl
  rw [hnames, List.nodup_cons]
  exact ⟨fun hm => h.named (List.mem_singleton.mp hm).symm, List.nodup_singleton _⟩

structure Laid (p : RowPage) (t : Tree) (id : BlockId) (root b : Block) : Prop where
  outline : t.outline? rootId = some (.node rootId root [.node id b []])
  inner : t.outline? id = some (.node id b [])
  ne : id ≠ rootId
  lookup : t.lookup p.block = .ok id
  content : root.content = p.before ++ (Markup.token (childName p.block) ++ p.after)
  vars : root.vars = []
  calls : root.calls = [] ∧ b.calls = []
  name : b.name = p.block
  body : b.content = p.body.write Markup.token
  marks : ∀ x, x ∈ b.vars ↔ x ∈ p.body.marks

theorem laid_of_represents {t : Tree} (ht : t.Sound) (h : t.Represents (p.document.page []))
    (hp : p.Plain) : ∃ id root b, p.Laid t id root b := by
  obtain ⟨-, o, ho, hholds, hshown, -, -⟩ := h
  rw [page_document] at hholds hshown
  obtain ⟨c, os, hc, hinner, hkids, rfl⟩ := hshown
  have hflat := p.body.flat_document
  obtain ⟨r, hr, hrn⟩ := ht.root_name
  obtain ⟨o', ho', hid, hm⟩ := Tree.outline?_of_live ht.tree hr
  rw [ho, Option.some.injEq] at ho'
  subst ho'
  cases o with
  | node i root cs =>
    cases c with
    | node j b ds =>
      cases hid
      cases hc
      cases hflat.shown _ _ hkids
      have hleaf : Outline.Mirrors t.get? (.node j b []) := hm.of_mem_children List.mem_cons_self
      have hlive : t.get? j = some b := hleaf.look_id
      -- The outline of the root shows the block without children, so this is its own outline too.
      have hinside : t.outline? j = some (.node j b []) := by
        obtain ⟨c, hc, hcid, hcm⟩ := Tree.outline?_of_live ht.tree hlive
        cases c with
        | node k d ds =>
          have hkj : k = j := hcid
          subst hkj
          have hblock : t.get? k = some d := hcm.look_id
          rw [hlive, Option.some.injEq] at hblock
          subst hblock
          have hds : ds = [] :=
            List.map_eq_nil_iff.mp (hcm.ids_children.trans hleaf.ids_children.symm)
          rw [hc, hds]
      have hname : b.name = p.block := hinner.name
      refine ⟨j, root, b, ho, hinside, ?_, ?_, hholds.content, hholds.vars, ⟨?_, ?_⟩, hname, ?_, ?_⟩
      · rintro rfl
        rw [hlive, Option.some.injEq] at hr
        exact hp.named (hname.symm.trans ((congrArg Block.name hr).trans hrn))
      · exact Tree.lookup_eq_ok_iff.mpr
          ((Tree.find?_eq_some_iff ht.distinct).mpr ⟨b, hlive, hname⟩)
      · exact hholds.calls
      · have hcalls : (p.body.document.page []).calls = [] := by
          rw [Page.calls, hflat.calls.1, hflat.calls.2.1]
          rfl
        have hb := hinner.calls
        rw [hcalls] at hb
        exact hb
      · exact hinner.content.trans (hflat.content _)
      · intro x
        have hvars : b.vars = _ := hinner.vars
        rw [hvars, hflat.vars, mem_foldl_addNew]
        exact ⟨fun hx => hx.resolve_left List.not_mem_nil, .inr⟩

structure Collected (p : RowPage) (t : Template) (id : BlockId) (rows : Text) : Prop where
  unset : ∀ x ∈ p.body.marks, t.state.locals.get? x = none
  globals : ∀ x, t.state.globals.get? x = none
  rows : t.state.output id = rows
  root : t.state.output rootId = []
  shown : ∀ x, t.state.isHidden x = false
  untouched : ∀ x, t.state.isTouched x = false
  pending : t.state.rootRendered = false

variable {e : Engine} {t : Template} {id : BlockId} {root b : Block} {rows : Text}

theorem text_block (he : e.dialect = .standard) (hp : p.Plain) (hl : p.Laid t.tree id root b)
    (hg : ∀ x, t.state.globals.get? x = none) {row : Row} (hrow : row.Fills p.body)
    (hset : ∀ x ∈ p.body.marks, t.state.locals.get? x = (Dict.ofList row).get? x) :
    (t.reference e id).text (.node id b []) = p.body.write row.value := by
  have horder : t.tree.preorder id = [(id, b)] := by
    rw [Tree.preorder, hl.inner]
    rfl
  have howns : (t.reference e id).owns id b = true := by
    obtain ⟨x, hx⟩ := List.exists_mem_of_ne_nil _ hp.marked
    obtain ⟨v, hv, -⟩ := hrow x hx
    rw [Reference.owns, List.any_eq_true]
    refine ⟨x, (hl.marks x).mpr hx, ?_⟩
    have hlocal : (t.reference e id).state.locals.get? x = some v := (hset x hx).trans hv
    have hfirst : Reference.listed
        ((t.reference e id).order.takeWhile fun q => decide (q.1 ≠ id)) = [] := by
      rw [Template.reference, horder]
      simp [Reference.listed]
    rw [hlocal, hfirst]
    rfl
  have hpiece : (t.reference e id).piece (.node id b []) = p.body.write Markup.token := by
    have hemits : (t.reference e id).emits id
        ((t.reference e id).owns id b || (t.reference e id).anyFull []) = true := by
      rw [howns, Reference.emits]
      rfl
    have htokens : (t.reference e id).tokens [] = fun _ => none := by
      funext x
      rw [Reference.tokens]
    rw [Reference.piece, if_pos hemits, htokens, hl.body]
    exact (congrArg (fun d => Dialect.splice d _ _) he).trans (Page.splice_none _)
  have hvalue : ∀ x ∈ p.body.marks, (t.reference e id).value x = some (row.value x) := by
    intro x hx
    obtain ⟨v, hv, -⟩ := hrow x hx
    have hlisted : (Reference.listed (t.reference e id).order).contains x = true := by
      rw [Template.reference, horder, List.contains_iff_mem]
      simpa [Reference.listed] using (hl.marks x).mpr hx
    have hglobal : (t.reference e id).state.globals.get? x = none := hg x
    have hlocal : (t.reference e id).state.locals.get? x = some v := (hset x hx).trans hv
    rw [Reference.value, if_pos hlisted, hglobal, hlocal, Row.value, hv]
    rfl
  rw [Reference.text, hpiece]
  refine (congrArg (fun d => Dialect.splice d _ _) he).trans ?_
  refine (Strand.splice_write hp.body.brace (fun x hx => (hp.body.names x hx).1) _).trans ?_
  refine Strand.write_congr ?_
  intro x hx
  rw [hvalue x hx]
  rfl

theorem text_root (he : e.dialect = .standard) (ho : e.options.removeEmpty = true) (hp : p.Plain)
    (hl : p.Laid t.tree id root b) (hc : p.Collected t id rows) (hrows : '\x7b' ∉ rows) :
    (t.reference e rootId).text (.node rootId root [.node id b []]) =
      p.before ++ (rows ++ p.after) := by
  have hbefore := (Markup.plainText_spec hp.before).1
  have hafter := (Markup.plainText_spec hp.after).1
  have hunset : ∀ x ∈ b.vars, (t.reference e rootId).state.locals.get? x = none := fun x hx =>
    hc.unset x ((hl.marks x).mp hx)
  have howns : (t.reference e rootId).owns id b = false := by
    rw [Reference.owns, List.any_eq_false]
    intro x hx
    rw [hunset x hx]
    exact Bool.false_ne_true
  have hempty : (t.reference e rootId).piece (.node id b []) = [] := by
    have hemits : (t.reference e rootId).emits id
        ((t.reference e rootId).owns id b || (t.reference e rootId).anyFull []) = false := by
      have hid : (id == rootId) = false := by simpa using hl.ne
      have htouched : (t.reference e rootId).state.isTouched id = false := hc.untouched id
      have hremove : (t.reference e rootId).engine.options.removeEmpty = true := ho
      rw [howns, Reference.emits, hid, htouched, hremove]
      rfl
    rw [Reference.piece, if_neg (by rw [hemits]; decide)]
  have htoken : (t.reference e rootId).tokens [.node id b []] (childName p.block) = some rows := by
    have hhidden : (t.reference e rootId).state.isHidden id = false := hc.shown id
    have houtput : (t.reference e rootId).state.output id = rows := hc.rows
    have hname : childName p.block = childName (Outline.node id b []).block.name :=
      congrArg childName hl.name.symm
    have hid : Outline.id (.node id b []) = id := rfl
    rw [Reference.tokens, Reference.tokens, hempty, Option.none_or, if_pos hname, hid, hhidden,
      houtput, List.append_nil]
    rfl
  have hpiece : (t.reference e rootId).piece (.node rootId root [.node id b []]) =
      p.before ++ (rows ++ p.after) := by
    have hemits : ∀ full, (t.reference e rootId).emits rootId full = true := by
      intro full
      rw [Reference.emits, beq_self_eq_true, Bool.or_true]
      rfl
    rw [Reference.piece, if_pos (hemits _), hl.content]
    refine (congrArg (fun d => Dialect.splice d _ _) he).trans ?_
    rw [Page.splice_append hbefore, Page.splice_token (Listing.isVariableName_childName hp.block), htoken,
      Page.splice_of_no_brace hafter]
    rfl
  rw [Reference.text, hpiece]
  refine (congrArg (fun d => Dialect.splice d _ _) he).trans (Page.splice_of_no_brace ?_ _)
  simp only [List.mem_append, not_or]
  exact ⟨hbefore, hrows, hafter⟩

def set (t : Template) (row : Row) : Template :=
  { t with state := { t.state with
      locals := row.foldl (fun d x => d.insert x.1 x.2) t.state.locals } }

theorem run_set (s : Session) (row : Row) :
    s.run e (row.map fun x => .setLocals (some x.1) (.text x.2)) =
      s.withTemplate (set s.template row) := by
  induction row generalizing s with
  | nil => rfl
  | cons x row ih => exact ih (s.apply e (.setLocals (some x.1) (.text x.2)))

theorem Collected.render (he : e.dialect = .standard) (hdata : e.options.preserveData = false)
    (hp : p.Plain) (ht : t.Sound) (hl : p.Laid t.tree id root b) (hc : p.Collected t id rows)
    {row : Row} (hrow : row.Fills p.body) (log : CallLog) :
    ((set t row).renderAt e id log).2.1.tree = t.tree ∧
      p.Collected ((set t row).renderAt e id log).2.1 id (rows ++ p.body.write row.value) := by
  have hset : ∀ x ∈ p.body.marks, (set t row).state.locals.get? x = (Dict.ofList row).get? x := by
    intro x hx
    refine (Dict.get?_foldl_insert_or row t.state.locals x).trans ?_
    rw [hc.unset x hx, Option.or_none]
  have hsound : (set t row).Sound := Template.sound_of_state ht ⟨ht.state.outputs, ht.state.marks⟩
  have hlaid : p.Laid (set t row).tree id root b := hl
  obtain ⟨b', hb, -⟩ := Tree.get?_of_find? (Tree.lookup_eq_ok_iff.mp hl.lookup)
  have hlive : t.tree.get? id = some b := by
    obtain ⟨o, ho, -, hm⟩ := Tree.outline?_of_live ht.tree.tree hb
    rw [hl.inner, Option.some.injEq] at ho
    subst ho
    exact hm.look_id
  have heffect := (Template.effect_renderAt hsound hlive e log).1
  have hcalls : ∀ x ∈ (Outline.node id b []).preorder, x.2.calls = [] := by
    intro x hx
    cases List.mem_singleton.mp hx
    exact hl.calls.2
  have hfalse : ∀ {c : Bool} {q : Prop}, (c = true ↔ q) → ¬ q → c = false := by
    intro c q h hq
    exact Bool.eq_false_iff.mpr fun hcq => hq (h.mp hcq)
  refine ⟨heffect.tree, ?_, ?_, ?_, ?_, ?_, ?_, ?_⟩
  · intro x hx
    refine Option.eq_none_iff_forall_ne_some.mpr fun v hv => ?_
    exact ((heffect.locals x v).mp hv).2 ⟨id, b, .refl, hlive, (hl.marks x).mpr hx⟩
  · intro x
    rw [heffect.globals]
    exact hc.globals x
  · rw [Template.output_renderAt hdata hsound.tree hlaid.inner hcalls,
      text_block he hp hlaid hc.globals hrow hset]
    exact congrArg (· ++ _) hc.rows
  · have hout := heffect.output_outside rootId fun h => hl.ne (ht.tree.tree.eq_of_reach_root h)
    exact hout.trans hc.root
  · intro x
    refine hfalse (heffect.hidden x) fun h => ?_
    rw [show (set t row).state.isHidden x = false from hc.shown x] at h
    cases h.1
  · intro x
    refine hfalse (heffect.touched x) fun h => ?_
    rw [show (set t row).state.isTouched x = false from hc.untouched x] at h
    cases h.1
  · refine hfalse heffect.rootRendered fun h => ?_
    rw [show (set t row).state.rootRendered = false from hc.pending] at h
    exact h.elim (fun h => Bool.false_ne_true h) hl.ne

theorem Collected.row (he : e.dialect = .standard) (hdata : e.options.preserveData = false)
    (hp : p.Plain) {s : Session} (hs : s.template.Sound) (hl : p.Laid s.template.tree id root b)
    (hc : p.Collected s.template id rows) {row : Row} (hrow : row.Fills p.body) :
    (s.run e (row.steps p.block)).template.tree = s.template.tree ∧
      p.Collected (s.run e (row.steps p.block)).template id (rows ++ p.body.write row.value) := by
  have hrun : s.run e (row.steps p.block) =
      ((s.withTemplate (set s.template row)).apply e (.render p.block)) := by
    rw [Row.steps, Session.run, List.foldl_append]
    exact congrArg (fun u => Session.apply e u (.render p.block)) (run_set s row)
  have hlookup : (set s.template row).tree.lookup p.block = .ok id := hl.lookup
  have hrender : ((s.withTemplate (set s.template row)).apply e (.render p.block)).template =
      ((set s.template row).renderAt e id s.log).2.1 := by
    rw [Session.apply, Session.withTemplate, Template.render, hlookup]
    rfl
  rw [hrun, hrender]
  exact hc.render he hdata hp hs hl hrow s.log

theorem Collected.run (he : e.dialect = .standard) (hdata : e.options.preserveData = false)
    (hp : p.Plain) {s : Session} (hs : s.template.Sound) (hl : p.Laid s.template.tree id root b)
    (hc : p.Collected s.template id rows) {all : List Row} (hall : ∀ row ∈ all, row.Fills p.body) :
    (s.run e (all.flatMap (Row.steps p.block))).template.tree = s.template.tree ∧
      p.Collected (s.run e (all.flatMap (Row.steps p.block))).template id
        (rows ++ p.rowsText all) := by
  induction all generalizing s rows with
  | nil =>
    rw [rowsText, List.flatMap_nil, List.flatMap_nil, List.append_nil]
    exact ⟨rfl, hc⟩
  | cons row all ih =>
    obtain ⟨htree, hnext⟩ := hc.row he hdata hp hs hl (hall row List.mem_cons_self)
    have hrest := ih (Session.sound_run e hs _) (htree ▸ hl) hnext
      fun r hr => hall r (List.mem_cons_of_mem row hr)
    have hrun : s.run e ((row :: all).flatMap (Row.steps p.block)) =
        (s.run e (row.steps p.block)).run e (all.flatMap (Row.steps p.block)) := by
      rw [List.flatMap_cons]
      exact List.foldl_append
    rw [hrun, rowsText, List.flatMap_cons, ← List.append_assoc]
    exact ⟨hrest.1.trans htree, hrest.2⟩

theorem Collected.output (he : e.dialect = .standard) (ho : e.options = {}) (hp : p.Plain)
    (ht : t.Sound) (hl : p.Laid t.tree id root b) (hc : p.Collected t id rows)
    (hrows : '\x7b' ∉ rows) (log : CallLog) :
    (t.output e rootName log).1 = .ok (p.before ++ (rows ++ p.after)) := by
  have hdata : e.options.preserveData = false := congrArg Options.preserveData ho
  have hremove : e.options.removeEmpty = true := congrArg Options.removeEmpty ho
  have hstrip : e.options.removeUnknown = true := congrArg Options.removeUnknown ho
  have hroot : t.tree.lookup rootName = .ok rootId := Template.lookup_root ht.tree
  have hcalls : ∀ x ∈ (Outline.node rootId root [.node id b []]).preorder, x.2.calls = [] := by
    intro x hx
    rcases List.mem_cons.mp hx with rfl | hx
    · exact hl.calls.1
    · cases List.mem_singleton.mp hx
      exact hl.calls.2
  have htext : (t.renderAt e rootId log).2.1.state.output rootId =
      p.before ++ (rows ++ p.after) := by
    rw [Template.output_renderAt hdata ht.tree hl.outline hcalls, hc.root,
      text_root he hremove hp hl hc hrows]
    rfl
  have hbrace : '\x7b' ∉ p.before ++ (rows ++ p.after) := by
    simp only [List.mem_append, not_or]
    exact ⟨(Markup.plainText_spec hp.before).1, hrows, (Markup.plainText_spec hp.after).1⟩
  have hfinish : Template.finish e (p.before ++ (rows ++ p.after)) =
      p.before ++ (rows ++ p.after) := by
    rw [Template.finish, hstrip, hdata]
    exact (congrArg (fun d => Dialect.strip d _) he).trans (Dialect.strip_of_no_brace hbrace)
  have hat : (t.outputAt e rootId log).1 = p.before ++ (rows ++ p.after) := by
    rw [Template.outputAt, if_pos ⟨rfl, hc.pending⟩]
    exact (congrArg (Template.finish e) htext).trans hfinish
  rw [Template.output, hroot]
  exact congrArg Except.ok hat

theorem collected_compile {source : Text} (h : Template.compile e source = .ok t) (id : BlockId) :
    p.Collected t id [] := by
  have hstate := Template.state_compile h
  refine ⟨fun x _ => ?_, fun x => ?_, ?_, ?_, fun x => ?_, fun x => ?_, ?_⟩ <;> rw [hstate] <;> rfl

theorem brace_not_mem_rowsText (hp : p.Plain) {all : List Row}
    (hall : ∀ row ∈ all, row.Fills p.body) : '\x7b' ∉ p.rowsText all := by
  intro hm
  obtain ⟨row, hrow, hm⟩ := List.mem_flatMap.mp hm
  refine Strand.not_mem_write hp.body.brace ?_ hm
  intro x hx
  obtain ⟨v, hv, hbrace⟩ := hall row hrow x hx
  rw [Row.value, hv]
  exact hbrace

/--
After a page with a block is compiled, and the block is rendered for each row with the values of the
row, the output of the root has the body once for each row where the block stands.
-/
theorem output_rows (he : e.dialect = .standard) (ho : e.options = {}) (hp : p.Plain)
    {all : List Row} (hall : ∀ row ∈ all, row.Fills p.body) :
    ∃ t, Template.compile e p.source = .ok t ∧ ∀ fs log,
      let s := (⟨t, fs, log⟩ : Session).run e (all.flatMap (Row.steps p.block))
      (s.template.output e rootName s.log).1 = .ok (p.before ++ (p.rowsText all ++ p.after)) := by
  have hdata : e.options.preserveData = false := congrArg Options.preserveData ho
  obtain ⟨t, ht, hrep⟩ := Template.represents_compile he hp.document hp.names
  rw [p.print_document] at ht
  have hsound := Template.sound_compile ht
  obtain ⟨id, root, b, hl⟩ := laid_of_represents hsound.tree hrep hp
  refine ⟨t, ht, ?_⟩
  intro fs log
  obtain ⟨htree, hc⟩ := (collected_compile ht id).run he hdata hp (s := ⟨t, fs, log⟩) hsound hl hall
  exact hc.output he ho hp (Session.sound_run e hsound _) (htree ▸ hl)
    (brace_not_mem_rowsText hp hall) _

def items : RowPage :=
  ⟨"List:".toList, "item".toList, ⟨" ".toList, [("n".toList, "=".toList), ("v".toList, [])]⟩,
    ".".toList⟩

def itemRows : List Row :=
  [[("n".toList, "a".toList), ("v".toList, "<!-- END item -->".toList)],
    [("v".toList, "old".toList), ("n".toList, "b".toList), ("v".toList, [])]]

theorem output_rows_items :
    items.Plain ∧ (∀ row ∈ itemRows, row.Fills items.body) ∧
    ∃ t, Template.compile .standard items.source = .ok t ∧
      let s := (⟨t, .empty, []⟩ : Session).run .standard (itemRows.flatMap (Row.steps items.block))
      (s.template.output .standard rootName s.log).1 =
        .ok "List: a=<!-- END item --> b=.".toList := by
  have hplain : items.Plain :=
    ⟨by decide, by decide, by decide, by decide, ⟨by decide, by decide⟩, by decide⟩
  have hfills : ∀ row ∈ itemRows, row.Fills items.body := by
    have hall : ∀ row ∈ itemRows, ∀ x ∈ items.body.marks,
        ((Dict.ofList row).get? x).isSome = true ∧ '\x7b' ∉ row.value x := by decide
    intro row hrow x hx
    obtain ⟨hset, hbrace⟩ := hall row hrow x hx
    obtain ⟨v, hv⟩ := Option.isSome_iff_exists.mp hset
    rw [Row.value, hv] at hbrace
    exact ⟨v, hv, hbrace⟩
  obtain ⟨t, ht, hout⟩ := output_rows (e := .standard) rfl rfl hplain hfills
  refine ⟨hplain, hfills, t, ht, ?_⟩
  exact (hout .empty []).trans (congrArg Except.ok (by decide))

end RowPage

end BlockTemplate
