import BlockTemplate.Proofs.Call.Reading
import BlockTemplate.Proofs.Document.Standing
import BlockTemplate.Proofs.Section.Basic
import BlockTemplate.Proofs.Fragment.Compile

/-!
# Taking filters and calls out of a text

To cut a filter or a call out of a text joins what stands on its sides to the token of the result. No
placeholder comes about in that way, since none has a brace but its first character; and none gets
lost, since what a call takes along stands in one of its arguments.
-/

namespace BlockTemplate

namespace Arguments

variable {p : Placeholder} {t v w : Text} {q : Char}

theorem not_infix_of_blank (h : AllBlank t) : ¬ p.print <:+: t := by
  intro hin
  exact absurd (h '\x7b' (hin.subset List.mem_cons_self)) (by decide)

theorem Quoted.prefix_of_prefix (h : Quoted q t v) (hw : '\\' ∉ w) (hp : w <+: t) : w <+: v := by
  induction h generalizing w with
  | nil => exact hp
  | escape c _ _ =>
    cases w with
    | nil => exact List.nil_prefix
    | cons d w => exact absurd ((List.cons_prefix_cons.mp hp).1 ▸ List.mem_cons_self) hw
  | plain _ _ _ ih =>
    cases w with
    | nil => exact List.nil_prefix
    | cons d w =>
      rw [List.mem_cons, not_or] at hw
      rw [List.cons_prefix_cons] at hp ⊢
      exact ⟨hp.1, ih hw.2 hp.2⟩

theorem Quoted.infix_of_infix (h : Quoted q t v) (hp : p.Proper) (hin : p.print <:+: t) :
    p.print <:+: v := by
  have hbody : '\\' ∉ p.body := Placeholder.not_mem_body hp (by decide)
  induction h with
  | nil => exact hin
  | escape c ht ih =>
    have hescaped : p.print <:+: c :: _ :=
      (Text.infix_append_of_not_mem (a := ['\\']) (by decide)).mp hin
    exact Text.infix_cons_mono (ht.prefix_of_prefix hbody) ih hescaped
  | plain _ _ ht ih => exact Text.infix_cons_mono (ht.prefix_of_prefix hbody) ih hin

theorem Item.infix_of_infix (h : Item t v) (hp : p.Proper) (hin : p.print <:+: t) :
    p.print <:+: v := by
  cases h with
  | @quoted before after s _ q hbefore hq hs hafter =>
    have hquote : q ∉ p.print := by
      rcases hq with rfl | rfl
      · exact Placeholder.not_mem_print hp (by decide) (by decide)
      · exact Placeholder.not_mem_print hp (by decide) (by decide)
    have hne : p.print ≠ [] := List.cons_ne_nil _ _
    rcases Text.infix_of_infix_append_cons hne hquote hin with hin | hin
    · exact absurd hin (not_infix_of_blank hbefore)
    · rcases Text.infix_of_infix_append_cons hne hquote hin with hin | hin
      · exact hs.infix_of_infix hp hin
      · exact absurd hin (not_infix_of_blank hafter)
  | @bare before s c hbefore hc =>
    have hbrace : '\x7b' ∉ before := fun hm => absurd (hbefore _ hm) (by decide)
    have hrest := (Text.infix_append_of_not_mem hbrace).mp hin
    obtain ⟨u, hu⟩ := p.exists_print_eq
    change p.print <:+: c :: s at hrest
    rw [hu] at hrest ⊢
    exact Text.infix_trimEnd (by decide) hrest

theorem Items.infix_of_infix {vs : List Text} (h : Items t vs) (hp : p.Proper)
    (hin : p.print <:+: t) : ∃ a ∈ vs, p.print <:+: a := by
  have hne : p.print ≠ [] := List.cons_ne_nil _ _
  induction h with
  | last hi =>
    have hparen : ')' ∉ p.print := Placeholder.not_mem_print hp (by decide) (by decide)
    rcases Text.infix_of_infix_append_cons hne hparen hin with hin | hin
    · exact ⟨_, List.mem_cons_self, hi.infix_of_infix hp hin⟩
    · exact absurd (List.infix_nil.mp hin) hne
  | more hi _ ih =>
    have hcomma : ',' ∉ p.print := Placeholder.not_mem_print hp (by decide) (by decide)
    rcases Text.infix_of_infix_append_cons hne hcomma hin with hin | hin
    · exact ⟨_, List.mem_cons_self, hi.infix_of_infix hp hin⟩
    · obtain ⟨a, ha, hina⟩ := ih hin
      exact ⟨a, List.mem_cons_of_mem _ ha, hina⟩

theorem Items.exists_eq_append {vs : List Text} (h : Items t vs) : ∃ s, t = s ++ [')'] := by
  induction h with
  | @last t _ _ => exact ⟨t, rfl⟩
  | @more t _ _ _ _ _ ih =>
    obtain ⟨s, hs⟩ := ih
    exact ⟨t ++ ',' :: s, by rw [hs, List.append_assoc, List.cons_append]⟩

theorem Derives.exists_eq_append {vs : List Text} (h : Derives t vs) : ∃ s, t = s ++ [')'] := by
  cases h with
  | none _ => exact ⟨_, rfl⟩
  | some hi => exact hi.exists_eq_append

theorem Derives.infix_of_infix {vs : List Text} (h : Derives t vs) (hp : p.Proper)
    (hin : p.print <:+: t) : ∃ a ∈ vs, p.print <:+: a := by
  cases h with
  | none hb =>
    have hparen : ')' ∉ p.print := Placeholder.not_mem_print hp (by decide) (by decide)
    have hne : p.print ≠ [] := List.cons_ne_nil _ _
    rcases Text.infix_of_infix_append_cons hne hparen hin with hin | hin
    · exact absurd hin (not_infix_of_blank hb)
    · exact absurd (List.infix_nil.mp hin) hne
  | some hi => exact hi.infix_of_infix hp hin

end Arguments

namespace Call

theorem Spelled.infix_append {c : Call} {p : Placeholder} {t rest : Text} (h : c.Spelled t)
    (hp : p.Proper) (hin : p.print <:+: t ++ rest) :
    (∃ a ∈ c.args, p.print <:+: a) ∨ p.print <:+: rest := by
  obtain ⟨head, used, ⟨hname, blanks, hblanks, hhead⟩, hd, rfl⟩ := h
  have hbrace : '\x7b' ∉ head := by
    rw [hhead]
    simp only [List.mem_append, List.mem_singleton, not_or]
    refine ⟨fun hm => ?_, fun hm => ?_, by decide⟩
    · exact absurd ((Markup.functionName_spec hname).2 _ hm) (by decide)
    · exact absurd (hblanks _ hm) (by decide)
  rw [List.append_assoc] at hin
  have hused : p.print <:+: used ++ rest := (Text.infix_append_of_not_mem hbrace).mp hin
  obtain ⟨s, hs⟩ := hd.exists_eq_append
  rw [hs, List.append_assoc, List.singleton_append] at hused
  have hparen : ')' ∉ p.print := Placeholder.not_mem_print hp (by decide) (by decide)
  refine (Text.infix_of_infix_append_cons (List.cons_ne_nil _ _) hparen hused).imp_left fun h => ?_
  exact hd.infix_of_infix hp (hs ▸ h.trans (List.prefix_append s [')']).isInfix)

end Call

namespace CallTable

def Passes (table : CallTable) (calls : List CallId) (w : Text) : Prop :=
  ∃ id ∈ calls, ∃ c, table.get? id = some c ∧ ∃ a ∈ c.args, w <:+: a

end CallTable

namespace Listing

structure Grows (l m : Listing) : Prop where
  vars : l.vars ⊆ m.vars
  calls : l.calls ⊆ m.calls
  table : l.table.Extends m.table

variable {children : List Text} {l m l' : Listing} {p : Placeholder} {t text : Text}

theorem Grows.refl (l : Listing) : Grows l l :=
  ⟨List.Subset.refl _, List.Subset.refl _, .refl l.table⟩

theorem Grows.trans (h : Grows l m) (h' : Grows m l') : Grows l l' :=
  ⟨List.Subset.trans h.vars h'.vars, List.Subset.trans h.calls h'.calls, h.table.trans h'.table⟩

theorem Grows.passes (h : Grows l m) {w : Text} (hw : l.table.Passes l.calls w) :
    m.table.Passes m.calls w := by
  obtain ⟨id, hid, c, hc, ha⟩ := hw
  exact ⟨id, h.calls hid, c, h.table id c hc, ha⟩

theorem grows_addVariable (l : Listing) (name : Text) : Grows l (l.addVariable name) :=
  ⟨fun _ hx => mem_addNew.mpr (.inl hx), List.Subset.refl _, .refl l.table⟩

theorem grows_addCall (l : Listing) (c : Call) : Grows l (l.addCall c).2 :=
  ⟨List.Subset.refl _, fun _ hx => mem_addNew.mpr (.inl hx), l.table.extends_intern c⟩

theorem passes_addCall (l : Listing) {c : Call} {w : Text} (h : ∃ a ∈ c.args, w <:+: a) :
    (l.addCall c).2.table.Passes (l.addCall c).2.calls w :=
  ⟨(l.addCall c).1, mem_addNew.mpr (.inr rfl), c, l.table.get?_intern_self c, h⟩

theorem grows_takeCalls (ps : List (Piece (Except Arguments.Failure Call))) (l : Listing) :
    Grows l (takeCalls .standard ps l).2 := by
  induction ps generalizing l with
  | nil => exact .refl l
  | cons p ps ih =>
    cases p with
    | char c => exact ih l
    | mark raw r =>
      cases r with
      | ok c => exact (grows_addCall l c).trans (ih (l.addCall c).2)
      | error e => exact .refl l

def enter (children : List Text) (p : Placeholder) (l : Listing) : Text × Listing :=
  let l := if reserved children p.name then l else l.addVariable p.name
  match p.filter with
  | none => (p.name, l)
  | some f =>
    let (id, l) := l.addCall (filterCall .standard p.name f)
    (id.memo, l)

def unfilter (children : List Text) (t : Text) (l : Listing) : Text × Listing :=
  takePlaceholders .standard children (Dialect.standard.placeholders t) l

theorem unfilter_char {c : Char} (hc : c ≠ '\x7b') :
    unfilter children (c :: t) l = (c :: (unfilter children t l).1, (unfilter children t l).2) := by
  rw [unfilter, Dialect.placeholders_char hc]
  rfl

theorem unfilter_stray (h : Placeholder.read .standard t = none) :
    unfilter children ('\x7b' :: t) l =
      ('\x7b' :: (unfilter children t l).1, (unfilter children t l).2) := by
  rw [unfilter, Dialect.placeholders_stray h]
  rfl

theorem unfilter_print (hp : p.Proper) :
    unfilter children (p.print ++ t) l =
      (Markup.token (enter children p l).1 ++ (unfilter children t (enter children p l).2).1,
        (unfilter children t (enter children p l).2).2) := by
  rw [unfilter, Dialect.placeholders_print hp, takePlaceholders, enter]
  obtain ⟨name, filter⟩ := p
  cases filter <;> rfl

theorem isVariableName_enter (hp : p.Proper) (l : Listing) :
    Page.isVariableName (enter children p l).1 = true := by
  obtain ⟨name, filter⟩ := p
  cases filter with
  | none => exact hp.name
  | some f => exact Part.isVariableName_memo _

theorem grows_note (name : Text) (l : Listing) :
    Grows l (if reserved children name then l else l.addVariable name) := by
  split
  · exact .refl l
  · exact grows_addVariable l name

theorem grows_enter (p : Placeholder) (l : Listing) : Grows l (enter children p l).2 := by
  obtain ⟨name, filter⟩ := p
  cases filter with
  | none => exact grows_note name l
  | some f => exact (grows_note name l).trans (grows_addCall _ _)

theorem grows_unfilter (children : List Text) (t : Text) (l : Listing) :
    Grows l (unfilter children t l).2 := by
  refine Placeholder.cut_induction (motive := fun t => ∀ l, Grows l (unfilter children t l).2)
    Grows.refl ?_ ?_ ?_ t l
  · intro c t hc ih l
    rw [unfilter_char hc]
    exact ih l
  · intro t hnone ih l
    rw [unfilter_stray hnone]
    exact ih l
  · intro p t hp ih l
    rw [unfilter_print hp]
    exact (grows_enter p l).trans (ih _)

theorem listed_enter (p : Placeholder) (l : Listing) :
    (enter children p l).1 ∈ (enter children p l).2.vars ∨
      reserved children (enter children p l).1 = true := by
  obtain ⟨name, filter⟩ := p
  cases filter with
  | none =>
    rw [enter]
    dsimp only
    split
    · rename_i hr
      exact .inr hr
    · exact .inl (mem_addNew.mpr (.inr rfl))
  | some f =>
    right
    rw [reserved, Bool.or_eq_true]
    exact .inr (CallId.isMemo_memo _)

theorem vars_enter {v : Text} (hv : v ∈ (enter children p l).2.vars) :
    v ∈ l.vars ∨ v = p.name ∧ (v = (enter children p l).1 ∨
      (enter children p l).2.table.Passes (enter children p l).2.calls (Markup.token v)) := by
  have hnote : ∀ {name : Text},
      v ∈ (if reserved children name then l else l.addVariable name).vars → v ∈ l.vars ∨ v = name := by
    intro name hv
    split at hv
    · exact .inl hv
    · exact mem_addNew.mp hv
  obtain ⟨name, filter⟩ := p
  cases filter with
  | none => exact (hnote hv).imp_right fun he => ⟨he, .inl he⟩
  | some f =>
    refine (hnote hv).imp_right fun he => ⟨he, .inr ?_⟩
    subst he
    exact passes_addCall _ ⟨Markup.token v, List.mem_singleton.mpr rfl, List.infix_rfl⟩

theorem prefix_unfilter {a : Text} (ha : '\x7b' ∉ a) (h : a <+: (unfilter children t l).1) :
    a <+: t := by
  revert a l
  refine Placeholder.cut_induction (motive := fun t => ∀ {l : Listing} {a : Text}, '\x7b' ∉ a →
    a <+: (unfilter children t l).1 → a <+: t) ?_ ?_ ?_ ?_ t
  · intro l a _ h
    exact h
  · intro c t hc ih l a ha h
    rw [unfilter_char hc] at h
    cases a with
    | nil => exact List.nil_prefix
    | cons x a =>
      rw [List.mem_cons, not_or] at ha
      rw [List.cons_prefix_cons] at h ⊢
      exact ⟨h.1, ih ha.2 h.2⟩
  · intro t hnone _ l a ha h
    rw [unfilter_stray hnone] at h
    cases a with
    | nil => exact List.nil_prefix
    | cons x a => exact absurd ((List.cons_prefix_cons.mp h).1 ▸ List.mem_cons_self) ha
  · intro p t hp _ l a ha h
    rw [unfilter_print hp] at h
    cases a with
    | nil => exact List.nil_prefix
    | cons x a => exact absurd ((List.cons_prefix_cons.mp h).1 ▸ List.mem_cons_self) ha

theorem listed_unfilter (hp : p.Proper) (h : p.print <:+: (unfilter children t l).1) :
    p.filter = none ∧
      (p.name ∈ (unfilter children t l).2.vars ∨ reserved children p.name = true) := by
  revert l
  refine Placeholder.cut_induction (motive := fun t => ∀ {l : Listing},
    p.print <:+: (unfilter children t l).1 → p.filter = none ∧
      (p.name ∈ (unfilter children t l).2.vars ∨ reserved children p.name = true)) ?_ ?_ ?_ ?_ t
  · intro l h
    cases List.infix_nil.mp h
  · intro c t hc ih l h
    rw [unfilter_char hc] at h ⊢
    rcases List.infix_cons_iff.mp h with h | h
    · exact absurd (List.cons_prefix_cons.mp h).1.symm hc
    · exact ih h
  · intro t hnone ih l h
    rw [unfilter_stray hnone] at h ⊢
    rcases List.infix_cons_iff.mp h with h | h
    · obtain ⟨rest, hrest⟩ := prefix_unfilter (Placeholder.brace_not_mem_body hp)
        (List.cons_prefix_cons.mp h).2
      rw [← hrest, Placeholder.read_body hp] at hnone
      cases hnone
    · exact ih h
  · intro q t hq ih l h
    rw [unfilter_print hq] at h ⊢
    rcases Placeholder.infix_print_append hp
      (Placeholder.proper_token (isVariableName_enter hq l)) h with rfl | h
    · refine ⟨rfl, (listed_enter q l).imp_left fun hv => ?_⟩
      exact (grows_unfilter children t _).vars hv
    · exact ih h

theorem placed_unfilter {v : Text} (hv : v ∈ (unfilter children t l).2.vars) :
    v ∈ l.vars ∨ Page.isVariableName v = true ∧ (Markup.token v <:+: (unfilter children t l).1 ∨
      (unfilter children t l).2.table.Passes (unfilter children t l).2.calls (Markup.token v)) := by
  revert l
  refine Placeholder.cut_induction (motive := fun t => ∀ {l : Listing},
    v ∈ (unfilter children t l).2.vars → v ∈ l.vars ∨ Page.isVariableName v = true ∧
      (Markup.token v <:+: (unfilter children t l).1 ∨ (unfilter children t l).2.table.Passes
        (unfilter children t l).2.calls (Markup.token v))) ?_ ?_ ?_ ?_ t
  · intro l hv
    exact .inl hv
  · intro c t hc ih l hv
    rw [unfilter_char hc] at hv ⊢
    refine (ih hv).imp_right fun h => ⟨h.1, h.2.imp_left fun h => ?_⟩
    exact h.trans (List.suffix_cons c _).isInfix
  · intro t hnone ih l hv
    rw [unfilter_stray hnone] at hv ⊢
    refine (ih hv).imp_right fun h => ⟨h.1, h.2.imp_left fun h => ?_⟩
    exact h.trans (List.suffix_cons _ _).isInfix
  · intro p t hp ih l hv
    rw [unfilter_print hp] at hv ⊢
    rcases ih hv with hv | ⟨hname, h⟩
    · refine (vars_enter hv).imp_right fun ⟨he, h⟩ => ⟨he ▸ hp.name, ?_⟩
      rcases h with rfl | h
      · exact .inl (List.prefix_append _ _).isInfix
      · exact .inr ((grows_unfilter children t _).passes h)
    · exact .inr ⟨hname, h.imp_left fun h => h.trans (List.suffix_append _ _).isInfix⟩

section Calls

variable {d : Dialect} {ps : List (Piece (Except Arguments.Failure Call))}

theorem Scanned.after_eq_ok {written raw : Text} {r : Scanned} (h : r.after written raw = .ok text) :
    ∃ rest, r = .ok rest ∧ text = written ++ rest := by
  cases r with
  | error e => cases h
  | ok rest =>
    cases h
    exact ⟨rest, rfl, rfl⟩

theorem takeCalls_append_ok {a : Text} (h : takeCalls d (a.map .char ++ ps) l = (.ok text, l')) :
    ∃ rest, takeCalls d ps l = (.ok rest, l') ∧ text = a ++ rest := by
  rw [takeCalls_append, Prod.mk.injEq] at h
  obtain ⟨rest, hr, rfl⟩ := Scanned.after_eq_ok h.1
  exact ⟨rest, Prod.ext hr h.2, rfl⟩

theorem takeCalls_mark_ok {raw : Text} {r : Except Arguments.Failure Call}
    (h : takeCalls d (.mark raw r :: ps) l = (.ok text, l')) :
    ∃ c rest, r = .ok c ∧ takeCalls d ps (l.addCall c).2 = (.ok rest, l') ∧
      text = d.token (l.addCall c).1.memo ++ rest := by
  cases r with
  | error e => cases h
  | ok c =>
    rw [takeCalls, Prod.mk.injEq] at h
    obtain ⟨rest, hr, rfl⟩ := Scanned.after_eq_ok h.1
    exact ⟨c, rest, rfl, Prod.ext hr h.2, rfl⟩

theorem prefix_takeCalls (h : takeCalls .standard ps l = (.ok text, l')) {a : Text} (ha : '\x7b' ∉ a)
    (hpre : a <+: text) : a <+: ps.flatMap Piece.raw := by
  induction ps generalizing l text a with
  | nil =>
    cases h
    exact hpre
  | cons p ps ih =>
    cases a with
    | nil => exact List.nil_prefix
    | cons x a =>
      cases p with
      | char c =>
        obtain ⟨rest, hrest, rfl⟩ := takeCalls_append_ok (a := [c]) h
        rw [List.mem_cons, not_or] at ha
        obtain ⟨hx, hpre⟩ := List.cons_prefix_cons.mp hpre
        exact List.cons_prefix_cons.mpr ⟨hx, ih hrest ha.2 hpre⟩
      | mark raw r =>
        obtain ⟨c, rest, -, -, rfl⟩ := takeCalls_mark_ok h
        exact absurd ((List.cons_prefix_cons.mp hpre).1 ▸ List.mem_cons_self) ha

theorem infix_takeCalls (h : takeCalls .standard ps l = (.ok text, l')) (hp : p.Proper)
    (hin : p.print <:+: text) :
    p.print <:+: ps.flatMap Piece.raw ∨ ∃ id : CallId, p = ⟨id.memo, none⟩ := by
  induction ps generalizing l text with
  | nil =>
    cases h
    cases List.infix_nil.mp hin
  | cons q ps ih =>
    cases q with
    | char c =>
      obtain ⟨rest, hrest, rfl⟩ := takeCalls_append_ok (a := [c]) h
      by_cases hmemo : ∃ id : CallId, p = ⟨id.memo, none⟩
      · exact .inr hmemo
      · refine .inl (Text.infix_cons_mono ?_ (fun hin => (ih hrest hin).resolve_right hmemo) hin)
        exact prefix_takeCalls hrest (Placeholder.brace_not_mem_body hp)
    | mark raw r =>
      obtain ⟨c, rest, -, hrest, rfl⟩ := takeCalls_mark_ok h
      rcases Placeholder.infix_print_append hp
        (Placeholder.proper_token (Part.isVariableName_memo (l.addCall c).1)) hin with he | hin
      · exact .inr ⟨_, he⟩
      · refine (ih hrest hin).imp_left fun h => h.trans ?_
        exact (List.suffix_append raw _).isInfix

theorem token_takeCalls {v : Text} (hv : Page.isVariableName v = true)
    (h : takeCalls .standard (callPieces t) l = (.ok text, l')) (hin : Markup.token v <:+: t) :
    Markup.token v <:+: text ∨ l'.table.Passes l'.calls (Markup.token v) := by
  revert l text
  refine Text.pieces_induction (motive := fun t => Markup.token v <:+: t →
    ∀ {l text}, takeCalls .standard (callPieces t) l = (.ok text, l') → Markup.token v <:+: text ∨
      l'.table.Passes l'.calls (Markup.token v)) Dialect.standard.callMark_ne Call.leaves_read
    ?_ ?_ ?_ ?_ t hin
  · intro hin
    cases List.infix_nil.mp hin
  · intro c t hexpect ih hin l text h
    rcases List.infix_cons_iff.mp hin with hpre | hin
    · obtain ⟨rest, hrest⟩ := hpre
      rw [← hrest, callPieces_token (Markup.variableName_spec hv).2] at h
      obtain ⟨after, -, rfl⟩ := takeCalls_append_ok h
      exact .inl (List.prefix_append _ _).isInfix
    · rw [callPieces, Text.pieces_of_expect_none hexpect] at h
      obtain ⟨rest, hrest, rfl⟩ := takeCalls_append_ok (a := [c]) h
      exact (ih hin hrest).imp_left fun h => h.trans (List.suffix_cons c rest).isInfix
  · intro t hnone ih hin l text h
    have hmark : '\x7b' ∉ Dialect.standard.callMark := by decide
    rw [callPieces, Text.pieces_of_read_none Dialect.standard.callMark_ne hnone] at h
    obtain ⟨rest, hrest, rfl⟩ := takeCalls_append_ok h
    refine (ih ((Text.infix_append_of_not_mem hmark).mp hin) hrest).imp_left fun h => ?_
    exact h.trans (List.suffix_append _ rest).isInfix
  · intro used rest r hread ih hin l text h
    have hmark : '\x7b' ∉ Dialect.standard.callMark := by decide
    have hin' : Markup.token v <:+: used ++ rest := (Text.infix_append_of_not_mem hmark).mp hin
    rw [callPieces, Text.pieces_of_read Dialect.standard.callMark_ne hread] at h
    obtain ⟨c, after, rfl, hafter, rfl⟩ := takeCalls_mark_ok h
    rcases (Call.spelled_of_read hread).infix_append (Placeholder.proper_token hv) hin' with ha | hin'
    · have hgrown := grows_takeCalls (callPieces rest) (l.addCall c).2
      rw [hafter] at hgrown
      exact .inr (hgrown.passes (passes_addCall l ha))
    · refine (ih hin' hafter).imp_left fun h => ?_
      exact h.trans (List.suffix_append _ after).isInfix

end Calls

end Listing

end BlockTemplate
