import BlockTemplate.Fragment.Listing
import BlockTemplate.Proofs.Call.Table
import BlockTemplate.Proofs.Document.Blocks

/-!
# Placeholders of printed documents

The placeholders of a page and those in the arguments of its calls are read as they were printed.
The numbers of calls are told by any table that the scan goes on with.
-/

namespace BlockTemplate

namespace CallTable

def numberOf (t : CallTable) (c : Call) : CallId := (t.find? c).getD 0

variable {t u : CallTable}

theorem idxOf?_map_some (cs : List Call) (c : Call) : (cs.map some).idxOf? (some c) = cs.idxOf? c := by
  rw [List.idxOf?, List.idxOf?, List.findIdx?_map]
  rfl

theorem intern_map_some (cs : List Call) (c : Call) :
    (intern ⟨cs.map some⟩ c).2 = ⟨(addNew cs c).map some⟩ := by
  have hfind : find? ⟨cs.map some⟩ c = cs.idxOf? c := idxOf?_map_some cs c
  rw [addNew]
  by_cases hc : c ∈ cs
  · rw [if_pos hc]
    cases hf : cs.idxOf? c with
    | none => exact absurd hc (idxOf?_eq_none hf)
    | some id =>
      rw [hf] at hfind
      rw [intern_of_found hfind]
  · rw [if_neg hc]
    have hnew : cs.idxOf? c = none := by
      rw [List.idxOf?, List.findIdx?_eq_none_iff]
      intro x hx
      exact beq_false_of_ne fun he => hc (he ▸ hx)
    have hfresh : fresh ⟨cs.map some⟩ = cs.length := by
      have hnone : (cs.map some).idxOf? none = none := by
        rw [List.idxOf?, List.findIdx?_eq_none_iff]
        intro x hx
        obtain ⟨y, -, rfl⟩ := List.mem_map.mp hx
        rfl
      rw [fresh, hnone]
      exact List.length_map ..
    rw [hnew] at hfind
    rw [intern, hfind]
    simp [hfresh]

theorem internList_map_some (cs ds : List Call) :
    internList ds ⟨cs.map some⟩ = ⟨(ds.foldl addNew cs).map some⟩ := by
  induction ds generalizing cs with
  | nil => rfl
  | cons d ds ih =>
    have hstep := intern_map_some cs d
    rw [internList, List.foldl_cons, hstep]
    exact ih (addNew cs d)

theorem numberOf_map_some (cs : List Call) (c : Call) :
    numberOf ⟨cs.map some⟩ c = (cs.idxOf? c).getD 0 := by
  rw [numberOf]
  exact congrArg (·.getD 0) (idxOf?_map_some cs c)

theorem intern_fst {c : Call} (he : (t.intern c).2.Extends u) (hd : u.Distinct) :
    (t.intern c).1 = u.numberOf c := by
  have hget := he _ c (t.get?_intern_self c)
  rw [numberOf, (find?_eq_some_iff hd).mpr hget]
  rfl

end CallTable

namespace Page

def between (number : Call → CallId) : Page → Text
  | .last t => t
  | .placeholder t name rest => t ++ (Markup.token name ++ rest.between number)
  | .filtered t name f rest =>
    t ++ (Markup.token (CallId.memo (number ⟨f, [Markup.token name]⟩)) ++ rest.between number)
  | .call t name args rest => t ++ (Markup.call name args ++ rest.between number)
  | .block t name _ rest => t ++ (Markup.token (childName name) ++ rest.between number)

def Braced (a : Text) : Prop :=
  ∀ s, '\x7b' :: s <:+ a → (Placeholder.readName .standard s).isSome = true

theorem braced_of_plain {a : Text} (h : plainArgument a = true) : Braced a := by
  rw [plainArgument, Bool.and_eq_true, List.all_eq_true] at h
  intro s hs
  exact h.2 _ ((List.mem_tails _ a).mpr hs)

theorem readName_eq_some {t r name : Text}
    (h : Placeholder.readName .standard t = some (name, r)) :
    t = name ++ '\x7d' :: r ∧ isVariableName name = true := by
  simp only [Placeholder.readName, Option.bind_eq_bind, Option.bind_eq_some_iff, Option.pure_def,
    Option.some.injEq, Prod.mk.injEq, Prod.exists] at h
  obtain ⟨name', s, hs, r', hr, rfl, rfl⟩ := h
  obtain ⟨ht, hne, hall, -⟩ := Tag.readSome_eq_some hs
  refine ⟨by rw [ht, Text.expect_eq_some.mp hr]; rfl, ?_⟩
  rw [isVariableName, Bool.and_eq_true, decide_eq_true_eq, List.all_eq_true]
  exact ⟨hne, hall⟩

theorem braced_induction {motive : Text → Prop} (nil : motive [])
    (char : ∀ c t, c ≠ '\x7b' → motive t → motive (c :: t))
    (token : ∀ name t, isVariableName name = true → motive t → motive (Markup.token name ++ t))
    {a : Text} (ha : Braced a) : motive a := by
  induction hn : a.length using Nat.strongRecOn generalizing a with
  | _ n ih =>
    cases a with
    | nil => exact nil
    | cons c t =>
      have htail : ∀ s, s <:+ c :: t → Braced s := fun s hs x hx => ha x (hx.trans hs)
      by_cases hc : c = '\x7b'
      · subst hc
        obtain ⟨⟨name, r⟩, hr⟩ := Option.isSome_iff_exists.mp (ha t List.suffix_rfl)
        obtain ⟨rfl, hname⟩ := readName_eq_some hr
        have hsplit : '\x7b' :: (name ++ '\x7d' :: r) = Markup.token name ++ r := by
          simp [Markup.token, Dialect.token, Dialect.standard]
        rw [hsplit] at htail hn ⊢
        refine token name r hname (ih r.length ?_ (htail r (List.suffix_append _ r)) rfl)
        rw [← hn, List.length_append]
        simp [Markup.token, Dialect.token, Dialect.standard]
      · exact char c t hc (ih t.length (by simp [← hn]) (htail t (List.suffix_cons c t)) rfl)

theorem token_append (name t : Text) :
    Markup.token name ++ t = ['\x7b'] ++ ((name ++ ['\x7d']) ++ t) := by
  simp [Markup.token, Dialect.token, Dialect.standard]

theorem brace_append (name : Text) : ['\x7b'] ++ (name ++ ['\x7d']) = Markup.token name := by
  simp [Markup.token, Dialect.token, Dialect.standard]

theorem readSome_name {name : Text} (hn : isVariableName name = true) {c : Char} {t : Text}
    (hc : Text.isVariableChar c = false) :
    Text.readSome Text.isVariableChar (name ++ c :: t) = some (name, c :: t) := by
  obtain ⟨hne, hall⟩ := Markup.variableName_spec hn
  refine Text.readSome_append hne hall ?_
  intro x hx
  cases hx
  exact hc

theorem names_token {name : Text} (hn : isVariableName name = true) (t : Text) :
    Dialect.standard.names (Markup.token name ++ t) =
      .mark (Markup.token name) name :: Dialect.standard.names t := by
  have hread : Placeholder.readName .standard ((name ++ ['\x7d']) ++ t) = some (name, t) := by
    rw [List.append_assoc]
    simp only [Placeholder.readName, List.singleton_append,
      readSome_name hn (t := t) (show Text.isVariableChar '\x7d' = false by decide),
      Option.bind_eq_bind, Option.bind_some]
    rfl
  have hpieces := Text.pieces_of_read Dialect.standard.opener_ne hread
  rw [token_append, ← brace_append name]
  exact hpieces

theorem read_token {name : Text} (hn : isVariableName name = true) (t : Text) :
    Placeholder.read .standard ((name ++ ['\x7d']) ++ t) = some (⟨name, none⟩, t) := by
  rw [List.append_assoc]
  simp only [Placeholder.read, List.singleton_append,
    readSome_name hn (t := t) (show Text.isVariableChar '\x7d' = false by decide),
    Option.bind_eq_bind, Option.bind_some]
  rfl

theorem read_filter {name f : Text} (hn : isVariableName name = true)
    (hf : Text.isFunctionName f = true) (t : Text) :
    Placeholder.read .standard ((name ++ ':' :: (f ++ ['\x7d'])) ++ t) =
      some (⟨name, some f⟩, t) := by
  have hfun : Text.readFunctionName (f ++ '\x7d' :: t) = some (f, '\x7d' :: t) := by
    refine Text.readFunctionName_append hf ?_
    intro c hc
    cases hc
    decide
  have hsplit : (name ++ ':' :: (f ++ ['\x7d'])) ++ t = name ++ ':' :: (f ++ '\x7d' :: t) := by
    simp
  rw [hsplit]
  simp only [Placeholder.read,
    readSome_name hn (t := f ++ '\x7d' :: t) (show Text.isVariableChar ':' = false by decide),
    Option.bind_eq_bind, Option.bind_some, Placeholder.readFilter, hfun]
  rfl

theorem placeholders_token {name : Text} (hn : isVariableName name = true) (t : Text) :
    Dialect.standard.placeholders (Markup.token name ++ t) =
      .mark (Markup.token name) ⟨name, none⟩ :: Dialect.standard.placeholders t := by
  have hpieces := Text.pieces_of_read Dialect.standard.opener_ne (read_token hn t)
  rw [token_append, ← brace_append name]
  exact hpieces

theorem placeholders_filter {name f : Text} (hn : isVariableName name = true)
    (hf : Text.isFunctionName f = true) (t : Text) :
    Dialect.standard.placeholders (Markup.filter name f ++ t) =
      .mark (Markup.filter name f) ⟨name, some f⟩ :: Dialect.standard.placeholders t :=
  Text.pieces_of_read Dialect.standard.opener_ne (read_filter hn hf t)

theorem placeholders_append {a : Text} (h : '\x7b' ∉ a) (t : Text) :
    Dialect.standard.placeholders (a ++ t) = a.map .char ++ Dialect.standard.placeholders t := by
  refine Text.pieces_append_of_clear (Text.clear_of_head (by decide) ?_ t)
  intro c hc he
  have hcb : '\x7b' = c := Option.some.inj he
  exact h (hcb ▸ hc)

theorem argumentNames_cons {c : Char} (hc : c ≠ '\x7b') (t : Text) :
    argumentNames (c :: t) = argumentNames t := by
  have hnone : Text.expect ['\x7b'] (c :: t) = none := by
    rw [Text.expect, if_neg (Ne.symm hc)]
  have hpieces : Dialect.standard.names (c :: t) = .char c :: Dialect.standard.names t :=
    Text.pieces_of_expect_none hnone
  rw [argumentNames, hpieces]
  rfl

theorem argumentNames_token {name : Text} (hn : isVariableName name = true) (t : Text) :
    argumentNames (Markup.token name ++ t) = name :: argumentNames t := by
  rw [argumentNames, names_token hn]
  rfl

theorem escape_cons (c : Char) (t : Text) :
    Markup.escape (c :: t) = Markup.escape [c] ++ Markup.escape t := by
  simp [Markup.escape]

theorem escape_token {name : Text} (hn : isVariableName name = true) (t : Text) :
    Markup.escape (Markup.token name ++ t) = Markup.token name ++ Markup.escape t := by
  have hplain : ∀ c ∈ Markup.token name, ¬ (c = '\\' ∨ c = '\'') := by
    intro c hc
    rw [← List.append_nil (Markup.token name), token_append] at hc
    simp only [List.append_nil, List.mem_append, List.mem_singleton] at hc
    rcases hc with rfl | hc | rfl
    · decide
    · rintro (rfl | rfl)
      · exact absurd ((Markup.variableName_spec hn).2 _ hc) (by decide)
      · exact absurd ((Markup.variableName_spec hn).2 _ hc) (by decide)
    · decide
  rw [Markup.escape, List.flatMap_append]
  congr 1
  generalize Markup.token name = s at hplain
  induction s with
  | nil => rfl
  | cons c s ih =>
    rw [List.flatMap_cons, if_neg (hplain c List.mem_cons_self),
      ih fun x hx => hplain x (List.mem_cons_of_mem _ hx)]
    rfl

end Page

namespace Listing

variable {children : List Text}

def addVariables (l : Listing) (names : List Text) : Listing :=
  { l with vars := names.foldl addNew l.vars }

def addCalls (number : Call → CallId) (l : Listing) (cs : List Call) : Listing :=
  { l with table := CallTable.internList cs l.table, calls := (cs.map number).foldl addNew l.calls }

theorem addVariables_nil (l : Listing) : l.addVariables [] = l := rfl

theorem addVariables_append (l : Listing) (names more : List Text) :
    l.addVariables (names ++ more) = (l.addVariables names).addVariables more := by
  simp [addVariables]

theorem addCall_eq (l : Listing) {c : Call} {u : CallTable}
    (he : (CallTable.internList [c] l.table).Extends u) (hd : u.Distinct) :
    l.addCall c = (u.numberOf c, l.addCalls u.numberOf [c]) := by
  have hid : (l.table.intern c).1 = u.numberOf c := CallTable.intern_fst he hd
  rw [addCall]
  simp only [hid]
  rfl

def Copied (children : List Text) (a : Text) (names : List Text) : Prop :=
  ∀ (rest : Text) (l : Listing),
    takePlaceholders .standard children (Dialect.standard.placeholders (a ++ rest)) l =
      (a ++ (takePlaceholders .standard children (Dialect.standard.placeholders rest)
          (l.addVariables names)).1,
        (takePlaceholders .standard children (Dialect.standard.placeholders rest)
          (l.addVariables names)).2)

theorem copied_nil : Copied children [] [] := by
  intro rest l
  rfl

theorem Copied.append {a b : Text} {names more : List Text} (ha : Copied children a names)
    (hb : Copied children b more) : Copied children (a ++ b) (names ++ more) := by
  intro rest l
  rw [List.append_assoc, ha, hb, addVariables_append, List.append_assoc]

theorem takePlaceholders_chars (a : Text) (ps : List (Piece Placeholder)) (l : Listing) :
    takePlaceholders .standard children (a.map .char ++ ps) l =
      (a ++ (takePlaceholders .standard children ps l).1,
        (takePlaceholders .standard children ps l).2) := by
  induction a with
  | nil => rfl
  | cons c a ih =>
    rw [List.map_cons, List.cons_append, takePlaceholders, ih]
    rfl

theorem copied_of_no_brace {a : Text} (h : '\x7b' ∉ a) : Copied children a [] := by
  intro rest l
  rw [Page.placeholders_append h, takePlaceholders_chars]
  rfl

theorem copied_variable {name : Text} (hn : Page.isVariableName name = true)
    (hr : reserved children name = false) : Copied children (Markup.token name) [name] := by
  intro rest l
  rw [Page.placeholders_token hn, takePlaceholders]
  simp only [hr]
  rfl

theorem copied_reserved {name : Text} (hn : Page.isVariableName name = true)
    (hr : reserved children name = true) : Copied children (Markup.token name) [] := by
  intro rest l
  rw [Page.placeholders_token hn, takePlaceholders]
  simp only [hr]
  rfl

theorem not_mem_escape {a : Text} {c : Char} (hb : c ≠ '\\') (h : c ∉ a) : c ∉ Markup.escape a := by
  rw [Markup.escape, List.mem_flatMap]
  rintro ⟨x, hx, hc⟩
  split at hc
  · simp only [List.mem_cons, List.not_mem_nil, or_false] at hc
    rcases hc with rfl | rfl
    · exact hb rfl
    · exact h hx
  · rw [List.mem_singleton] at hc
    exact h (hc ▸ hx)

theorem copied_escape {a : Text} (ha : Page.Braced a)
    (hr : ∀ name ∈ Page.argumentNames a, reserved children name = false) :
    Copied children (Markup.escape a) (Page.argumentNames a) := by
  revert hr
  refine Page.braced_induction
    (motive := fun a => (∀ name ∈ Page.argumentNames a, reserved children name = false) →
      Copied children (Markup.escape a) (Page.argumentNames a)) ?_ ?_ ?_ ha
  · intro _
    exact copied_nil
  · intro c t hc ih hr
    rw [Page.argumentNames_cons hc] at hr ⊢
    have hbrace : '\x7b' ∉ Markup.escape [c] :=
      not_mem_escape (by decide) (by simpa using Ne.symm hc)
    rw [Page.escape_cons]
    exact (copied_of_no_brace hbrace).append (ih hr)
  · intro name t hn ih hr
    rw [Page.argumentNames_token hn] at hr ⊢
    rw [Page.escape_token hn]
    have htoken := copied_variable hn (hr name List.mem_cons_self)
    exact htoken.append (ih fun x hx => hr x (List.mem_cons_of_mem _ hx))

theorem copied_quote {a : Text} (ha : Page.Braced a)
    (hr : ∀ name ∈ Page.argumentNames a, reserved children name = false) :
    Copied children (Markup.quote a) (Page.argumentNames a) := by
  have hquote : Copied children ['\''] [] := copied_of_no_brace (by decide)
  have h := hquote.append ((copied_escape ha hr).append hquote)
  rw [List.append_nil, List.nil_append] at h
  exact h

theorem copied_arguments {args : List Text} (ha : ∀ a ∈ args, Page.Braced a)
    (hr : ∀ name ∈ args.flatMap Page.argumentNames, reserved children name = false) :
    Copied children (Markup.arguments args) (args.flatMap Page.argumentNames) := by
  induction args with
  | nil => exact copied_nil
  | cons a args ih =>
    rw [List.flatMap_cons] at hr ⊢
    have hquote := copied_quote (ha a List.mem_cons_self)
      fun name hname => hr name (List.mem_append_left _ hname)
    have hrest := ih (fun x hx => ha x (List.mem_cons_of_mem _ hx))
      fun name hname => hr name (List.mem_append_right _ hname)
    cases args with
    | nil =>
      rw [Markup.arguments_singleton, List.flatMap_nil, List.append_nil]
      exact hquote
    | cons b args =>
      rw [Markup.arguments_cons_cons]
      have hcomma : Copied children [','] [] := copied_of_no_brace (by decide)
      exact hquote.append (hcomma.append hrest)

theorem copied_call {name : Text} {args : List Text} (hn : Text.isFunctionName name = true)
    (ha : ∀ a ∈ args, Page.Braced a)
    (hr : ∀ name ∈ args.flatMap Page.argumentNames, reserved children name = false) :
    Copied children (Markup.call name args) (args.flatMap Page.argumentNames) := by
  have hname : '\x7b' ∉ "func_".toList ++ (name ++ ['(']) := by
    simp only [List.mem_append, not_or]
    refine ⟨by decide, fun hm => ?_, by decide⟩
    exact absurd ((Markup.functionName_spec hn).2 _ hm) (by decide)
  have hclose : Copied children [')'] [] := copied_of_no_brace (by decide)
  have h := (copied_of_no_brace hname).append ((copied_arguments ha hr).append hclose)
  rw [List.append_nil, List.nil_append] at h
  have hsplit : Markup.call name args =
      "func_".toList ++ (name ++ ['(']) ++ (Markup.arguments args ++ [')']) := by
    simp [Markup.call]
  rw [hsplit]
  exact h

theorem reserved_childName {name : Text} (h : name ∈ children) :
    reserved children (childName name) = true := by
  rw [reserved, Bool.or_eq_true, List.any_eq_true]
  exact .inl ⟨name, h, beq_self_eq_true _⟩

theorem isVariableName_childName {name : Text} (hn : Page.isBlockName name = true) :
    Page.isVariableName (childName name) = true := by
  have hall := (Markup.blockName_spec hn).2
  rw [Page.isVariableName, Bool.and_eq_true, decide_eq_true_eq, List.all_eq_true, childName]
  have hbar : ∀ c ∈ "__".toList, Text.isVariableChar c = true := List.all_eq_true.mp rfl
  refine ⟨by simp, ?_⟩
  intro c hc
  simp only [List.mem_append] at hc
  rcases hc with (hc | hc) | hc
  · exact hbar c hc
  · exact Text.isVariableChar_of_isBlockChar (hall c hc)
  · exact hbar c hc

theorem copied_text {t : Text} (ht : Page.plainText t = true) : Copied children t [] :=
  copied_of_no_brace (Markup.plainText_spec ht).1

theorem takePlaceholders_filter {name f : Text} (hn : Page.isVariableName name = true)
    (hf : Text.isFunctionName f = true) (hr : reserved children name = false) (rest : Text)
    (l : Listing) {u : CallTable}
    (he : (CallTable.internList [⟨f, [Markup.token name]⟩] l.table).Extends u) (hd : u.Distinct) :
    takePlaceholders .standard children
        (Dialect.standard.placeholders (Markup.filter name f ++ rest)) l =
      (Markup.token (CallId.memo (u.numberOf ⟨f, [Markup.token name]⟩)) ++
          (takePlaceholders .standard children (Dialect.standard.placeholders rest)
            ((l.addVariables [name]).addCalls u.numberOf [⟨f, [Markup.token name]⟩])).1,
        (takePlaceholders .standard children (Dialect.standard.placeholders rest)
          ((l.addVariables [name]).addCalls u.numberOf [⟨f, [Markup.token name]⟩])).2) := by
  have hcall : (l.addVariable name).addCall (filterCall .standard name f) = _ :=
    addCall_eq (l.addVariable name) he hd
  rw [Page.placeholders_filter hn hf, takePlaceholders]
  simp only [hr, Bool.false_eq_true, if_false, hcall]
  rfl

theorem takePlaceholders_surface {p : Page} (hp : p.clean = true)
    (hc : ∀ name ∈ p.childNames, name ∈ children)
    (hr : ∀ name ∈ p.variableNames, reserved children name = false) (l : Listing)
    {u : CallTable} (he : (CallTable.internList p.filters l.table).Extends u) (hd : u.Distinct) :
    takePlaceholders .standard children (Dialect.standard.placeholders p.surface) l =
      (p.between u.numberOf, (l.addVariables p.variableNames).addCalls u.numberOf p.filters) := by
  induction p generalizing l with
  | last t =>
    have htext : Copied children t [] := copied_text hp
    have h := htext [] l
    rw [List.append_nil] at h
    rw [Page.surface, h]
    simp [takePlaceholders, Dialect.placeholders, Page.between, addVariables, addCalls,
      Page.variableNames, Page.filters, CallTable.internList]
  | placeholder t name rest ih =>
    simp only [Page.clean, Bool.and_eq_true] at hp
    have hitem := (copied_text hp.1.1).append (copied_variable hp.1.2 (hr name List.mem_cons_self))
    have hrest := ih hp.2 hc (fun x hx => hr x (List.mem_cons_of_mem _ hx))
      (l.addVariables [name]) he
    rw [Page.surface, ← List.append_assoc, hitem, List.nil_append, hrest, List.append_assoc]
    rfl
  | filtered t name f rest ih =>
    simp only [Page.clean, Bool.and_eq_true] at hp
    have hone : (CallTable.internList [⟨f, [Markup.token name]⟩] l.table).Extends u :=
      (CallTable.extends_internList rest.filters _).trans he
    have hitem := takePlaceholders_filter hp.1.1.2 hp.1.2 (hr name List.mem_cons_self)
      rest.surface l hone hd
    have hrest := ih hp.2 hc (fun x hx => hr x (List.mem_cons_of_mem _ hx))
      ((l.addVariables [name]).addCalls u.numberOf [⟨f, [Markup.token name]⟩]) he
    rw [Page.surface, copied_text hp.1.1.1]
    simp only [addVariables_nil, hitem, hrest]
    rfl
  | call t name args rest ih =>
    simp only [Page.clean, Bool.and_eq_true, List.all_eq_true] at hp
    have hcall := copied_call hp.1.1.2 (fun a ha => Page.braced_of_plain (hp.1.2 a ha))
      fun x hx => hr x (List.mem_append_left _ hx)
    have hitem := (copied_text hp.1.1.1).append hcall
    have hrest := ih hp.2 hc (fun x hx => hr x (List.mem_append_right _ hx))
      (l.addVariables (args.flatMap Page.argumentNames)) he
    rw [Page.surface, ← List.append_assoc, hitem, List.nil_append, hrest, List.append_assoc,
      ← addVariables_append]
    rfl
  | block t name body rest ihb ih =>
    simp only [Page.clean, Bool.and_eq_true] at hp
    have hchild := copied_reserved (isVariableName_childName hp.1.1.2)
      (reserved_childName (hc name List.mem_cons_self))
    have hitem := (copied_text hp.1.1.1).append hchild
    have hrest := ih hp.2 (fun x hx => hc x (List.mem_cons_of_mem _ hx)) hr l he
    rw [Page.surface, ← List.append_assoc, hitem, List.nil_append, addVariables_nil, hrest,
      List.append_assoc]
    rfl

end Listing

end BlockTemplate
