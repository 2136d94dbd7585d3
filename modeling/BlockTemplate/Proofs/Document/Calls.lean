import BlockTemplate.Proofs.Document.Placeholders

/-!
# Calls of printed documents

A printed call is read back with its arguments. Nothing inside a placeholder is read as a call, so
exactly the calls of a page give way to the placeholders of their results.
-/

namespace BlockTemplate

namespace Arguments

theorem readFrom_plain {c : Char} (hb : c ≠ '\\') (hq : c ≠ '\'') (done : List Text)
    (arg t : Text) :
    readFrom (.quoted '\'') done arg (c :: t) = readFrom (.quoted '\'') done (c :: arg) t := by
  rw [readFrom, if_neg hb, if_neg hq]

theorem readFrom_backslash (c : Char) (done : List Text) (arg t : Text) :
    readFrom (.quoted '\'') done arg ('\\' :: c :: t) =
      readFrom (.quoted '\'') done (c :: arg) t := by
  rw [readFrom, if_pos rfl, readFrom]

theorem readFrom_escape (a arg t : Text) (done : List Text) :
    readFrom (.quoted '\'') done arg (Markup.escape a ++ '\'' :: t) =
      readFrom .afterQuote done (a.reverse ++ arg) t := by
  induction a generalizing arg with
  | nil =>
    change readFrom (.quoted '\'') done arg ('\'' :: t) = _
    rw [readFrom, if_neg (by decide), if_pos rfl]
    rfl
  | cons c a ih =>
    rw [List.reverse_cons, List.append_assoc, List.singleton_append, ← ih, Markup.escape,
      List.flatMap_cons]
    by_cases hc : c = '\\' ∨ c = '\''
    · rw [if_pos hc]
      exact readFrom_backslash c done arg _
    · rw [if_neg hc]
      rw [not_or] at hc
      exact readFrom_plain hc.1 hc.2 done arg _

theorem readFrom_arguments (a : Text) (args done : List Text) (rest : Text) :
    readFrom .next done [] (Markup.arguments (a :: args) ++ ')' :: rest) =
      .ok (done ++ a :: args, rest) := by
  have hquote : ∀ (a t : Text) done, readFrom .next done [] (Markup.quote a ++ t) =
      readFrom .afterQuote done a.reverse t := by
    intro a t done
    have hopen : Markup.quote a ++ t = '\'' :: (Markup.escape a ++ '\'' :: t) := by
      simp [Markup.quote]
    rw [hopen, readFrom, if_neg (by decide), if_pos (by decide), readFrom_escape, List.append_nil]
  induction args generalizing a done with
  | nil =>
    rw [Markup.arguments_singleton, hquote, readFrom, if_pos rfl, List.reverse_reverse]
  | cons b args ih =>
    rw [Markup.arguments_cons_cons, List.append_assoc, hquote, List.cons_append, readFrom,
      if_neg (by decide), if_pos rfl, List.reverse_reverse, ih, List.append_assoc]
    rfl

theorem read_arguments (args : List Text) (rest : Text) :
    read (Markup.arguments args ++ ')' :: rest) = .ok (args, rest) := by
  cases args with
  | nil => rfl
  | cons a args =>
    have hfirst : ∀ t : Text, readFrom .first [] [] ('\'' :: t) = readFrom .next [] [] ('\'' :: t) := by
      intro t
      rfl
    have hhead : ∃ t, Markup.arguments (a :: args) ++ ')' :: rest = '\'' :: t := by
      cases args with
      | nil =>
        rw [Markup.arguments_singleton]
        exact ⟨_, rfl⟩
      | cons b args =>
        rw [Markup.arguments_cons_cons]
        exact ⟨_, rfl⟩
    have h := readFrom_arguments a args [] rest
    obtain ⟨t, ht⟩ := hhead
    rw [ht] at h ⊢
    rw [read, hfirst, h]
    rfl

end Arguments

namespace Call

theorem read_print {name : Text} (hn : Text.isFunctionName name = true) (args : List Text)
    (rest : Text) :
    read ((name ++ '(' :: (Markup.arguments args ++ [')'])) ++ rest) =
      some (.ok ⟨name, args⟩, rest) := by
  have hname : Text.readFunctionName (name ++ '(' :: (Markup.arguments args ++ ')' :: rest)) =
      some (name, '(' :: (Markup.arguments args ++ ')' :: rest)) := by
    refine Text.readFunctionName_append hn ?_
    intro c hc
    cases hc
    decide
  have hparen : Text.expect ['('] (('(' :: (Markup.arguments args ++ ')' :: rest)).dropWhile
      Text.isBlank) = some (Markup.arguments args ++ ')' :: rest) := rfl
  have hsplit : (name ++ '(' :: (Markup.arguments args ++ [')'])) ++ rest =
      name ++ '(' :: (Markup.arguments args ++ ')' :: rest) := by
    simp
  rw [hsplit]
  simp only [read, hname, hparen, Arguments.read_arguments, Option.bind_eq_bind, Option.bind_some,
    Option.pure_def]

theorem read_in_name {a : Text} (ha : ∀ c ∈ a, Text.isVariableChar c = true) (rest : Text) :
    read (a ++ '\x7d' :: rest) = none := by
  have hno : ∀ t : Text, (∀ c ∈ t.head?, Text.isVariableChar c = true ∨ c = '\x7d') →
      Text.expect ['('] (t.dropWhile Text.isBlank) = none := by
    intro t ht
    cases t with
    | nil => rfl
    | cons c t =>
      have hc := ht c rfl
      have hblank : Text.isBlank c = false := by
        rcases hc with hc | rfl
        · exact Text.isBlank_of_isVariableChar hc
        · decide
      have hparen : '(' ≠ c := by
        rintro rfl
        exact absurd hc (by decide)
      rw [List.dropWhile_cons_of_neg (by simp [hblank]), Text.expect, if_neg hparen]
  cases a with
  | nil => rfl
  | cons c a =>
    by_cases hc : Text.isFunctionStart c = true
    · have hdrop : Text.expect ['('] (((a ++ '\x7d' :: rest).dropWhile
          Text.isFunctionChar).dropWhile Text.isBlank) = none := by
        refine hno _ ?_
        rw [List.dropWhile_append]
        split
        · intro x hx
          rw [List.dropWhile_cons_of_neg (by decide)] at hx
          cases hx
          exact .inr rfl
        · rename_i hne
          obtain ⟨y, ys, hys⟩ := List.exists_cons_of_ne_nil
            (show a.dropWhile Text.isFunctionChar ≠ [] by simpa using hne)
          intro x hx
          rw [hys] at hx
          cases hx
          have hy : y ∈ a := (List.dropWhile_suffix _).mem (hys ▸ List.mem_cons_self)
          exact .inl (ha y (List.mem_cons_of_mem _ hy))
      simp only [read, List.cons_append, Text.readFunctionName, if_pos hc, hdrop,
        Option.bind_eq_bind, Option.bind_some, Option.bind_none]
    · simp only [read, List.cons_append, Text.readFunctionName, if_neg hc, Option.bind_eq_bind,
        Option.bind_none]

theorem pieces_name {a : Text} (ha : ∀ c ∈ a, Text.isVariableChar c = true) (rest : Text) :
    Text.pieces "func_".toList read (a ++ '\x7d' :: rest) =
      a.map .char ++ Text.pieces "func_".toList read ('\x7d' :: rest) := by
  induction hn : a.length using Nat.strongRecOn generalizing a with
  | _ n ih =>
    cases a with
    | nil => rfl
    | cons c a =>
      have htail : ∀ x ∈ a, Text.isVariableChar x = true :=
        fun x hx => ha x (List.mem_cons_of_mem _ hx)
      cases he : Text.expect "func_".toList (c :: (a ++ '\x7d' :: rest)) with
      | none =>
        rw [List.cons_append, Text.pieces_of_expect_none he, ih a.length (by simp [← hn]) htail rfl]
        rfl
      | some after =>
        have heq : (c :: a) ++ '\x7d' :: rest = "func_".toList ++ after := Text.expect_eq_some.mp he
        rcases List.append_eq_append_iff.mp heq with ⟨o, ho, hr⟩ | ⟨b, hb, hr⟩
        · cases o with
          | nil =>
            rw [List.append_nil] at ho
            rw [List.nil_append] at hr
            have hnone : read after = none := by
              rw [← hr]
              exact read_in_name (a := []) (by simp) rest
            rw [heq, Text.pieces_of_read_none (by decide) hnone, ← hr, ← ho]
          | cons y o =>
            have hy : y = '\x7d' := (List.cons.inj hr).1.symm
            have hmem : y ∈ "func_".toList := by
              rw [ho]
              exact List.mem_append_right _ List.mem_cons_self
            rw [hy] at hmem
            exact absurd hmem (by decide)
        · have hb' : ∀ x ∈ b, Text.isVariableChar x = true := fun x hx =>
            ha x (hb ▸ List.mem_append_right _ hx)
          have hlen : b.length < n := by
            rw [← hn, hb, List.length_append]
            exact Nat.lt_add_of_pos_left (by decide)
          rw [heq, hr, Text.pieces_of_read_none (by decide) (read_in_name hb' rest),
            ih b.length hlen hb' rfl, hb, List.map_append, List.append_assoc]

end Call

theorem CallId.isVariableChar_memo (id : CallId) :
    ∀ c ∈ memo id, Text.isVariableChar c = true := by
  have hstart : ∀ c ∈ "__function_".toList, Text.isVariableChar c = true :=
    List.all_eq_true.mp rfl
  have hend : ∀ c ∈ "__".toList, Text.isVariableChar c = true := List.all_eq_true.mp rfl
  intro c hc
  rcases List.mem_append.mp hc with hc | hc
  · rcases List.mem_append.mp hc with hc | hc
    · exact hstart c hc
    · have hdigit : c.isDigit = true := Nat.isDigit_of_mem_toDigits (by decide) (by decide) hc
      simp [Text.isVariableChar, Text.isBlockChar, Char.isAlphanum, hdigit]
  · exact hend c hc

namespace Listing

open Markup (Edge edge_nil edge_token edge_call)

theorem Scanned.after_nil (r : Scanned) : r.after [] [] = r := by
  rcases r with ⟨why, m, n⟩ | text
  · simp [Scanned.after]
  · rfl

theorem Scanned.after_after (written raw written' raw' : Text) (r : Scanned) :
    (r.after written' raw').after written raw = r.after (written ++ written') (raw ++ raw') := by
  rcases r with ⟨why, m, n⟩ | text
  · simp [Scanned.after, Nat.add_assoc]
  · simp [Scanned.after]

theorem takeCalls_append (d : Dialect) (a : Text)
    (ps : List (Piece (Except Arguments.Failure Call))) (l : Listing) :
    takeCalls d (a.map .char ++ ps) l =
      ((takeCalls d ps l).1.after a a, (takeCalls d ps l).2) := by
  induction a with
  | nil => exact Prod.ext (Scanned.after_nil _).symm rfl
  | cons c a ih =>
    rw [List.map_cons, List.cons_append, takeCalls, ih]
    exact Prod.ext (Scanned.after_after [c] [c] a a _) rfl

theorem takeCalls_chars (d : Dialect) (a : Text)
    (ps : List (Piece (Except Arguments.Failure Call))) (l : Listing) {text : Text} {l' : Listing}
    (h : takeCalls d ps l = (.ok text, l')) :
    takeCalls d (a.map .char ++ ps) l = (.ok (a ++ text), l') := by
  rw [takeCalls_append, h]
  rfl

abbrev callPieces (t : Text) : List (Piece (Except Arguments.Failure Call)) :=
  Text.pieces Dialect.standard.callMark Call.read t

variable {l l' : Listing} {rest text : Text}

theorem takeCalls_text {t : Text} (ht : Page.plainText t = true) (he : Edge rest)
    (h : takeCalls .standard (callPieces rest) l = (.ok text, l')) :
    takeCalls .standard (callPieces (t ++ rest)) l = (.ok (t ++ text), l') := by
  have hclear : Text.Clear "func_".toList t rest :=
    Text.clear_of_not_infix (Markup.plainText_spec ht).2.2 (he.not_mem (by simp))
  have hpieces : callPieces (t ++ rest) = t.map .char ++ callPieces rest :=
    Text.pieces_append_of_clear hclear
  rw [hpieces]
  exact takeCalls_chars _ t _ l h

theorem callPieces_token {name : Text} (hn : ∀ c ∈ name, Text.isVariableChar c = true)
    (rest : Text) :
    callPieces (Markup.token name ++ rest) =
      (Markup.token name).map .char ++ callPieces rest := by
  have hone : ∀ (c : Char) (t : Text), 'f' ≠ c → callPieces (c :: t) = .char c :: callPieces t := by
    intro c t hc
    refine Text.pieces_of_expect_none ?_
    change Text.expect ('f' :: "unc_".toList) (c :: t) = none
    rw [Text.expect, if_neg hc]
  have hname : callPieces (name ++ '\x7d' :: rest) = name.map .char ++ callPieces ('\x7d' :: rest) :=
    Call.pieces_name hn rest
  rw [← Page.brace_append, List.singleton_append, List.cons_append, hone _ _ (by decide),
    List.append_assoc, List.singleton_append, hname, hone _ _ (by decide)]
  simp

theorem takeCalls_token {name : Text} (hn : ∀ c ∈ name, Text.isVariableChar c = true)
    (h : takeCalls .standard (callPieces rest) l = (.ok text, l')) :
    takeCalls .standard (callPieces (Markup.token name ++ rest)) l =
      (.ok (Markup.token name ++ text), l') := by
  rw [callPieces_token hn]
  exact takeCalls_chars _ _ _ l h

theorem takeCalls_call {name : Text} {args : List Text} (hn : Text.isFunctionName name = true)
    {u : CallTable} (he : (CallTable.internList [⟨name, args⟩] l.table).Extends u)
    (hd : u.Distinct)
    (h : takeCalls .standard (callPieces rest) (l.addCalls u.numberOf [⟨name, args⟩]) =
      (.ok text, l')) :
    takeCalls .standard (callPieces (Markup.call name args ++ rest)) l =
      (.ok (Markup.token (CallId.memo (u.numberOf ⟨name, args⟩)) ++ text), l') := by
  have hpieces : callPieces (Markup.call name args ++ rest) =
      .mark (Markup.call name args) (.ok ⟨name, args⟩) :: callPieces rest := by
    have := Text.pieces_of_read Dialect.standard.callMark_ne (Call.read_print hn args rest)
    rw [← List.append_assoc] at this
    exact this
  rw [hpieces, takeCalls, addCall_eq l he hd]
  simp only [h]
  rfl

theorem takeCalls_between {p : Page} (hp : p.clean = true) (l : Listing) {u : CallTable}
    (he : (CallTable.internList p.inlineCalls l.table).Extends u) (hd : u.Distinct) :
    takeCalls .standard (callPieces (p.between u.numberOf)) l =
      (.ok (p.content u.numberOf), l.addCalls u.numberOf p.inlineCalls) := by
  induction p generalizing l with
  | last t =>
    have h : takeCalls .standard (callPieces (t ++ [])) l = (.ok (t ++ []), l) :=
      takeCalls_text hp edge_nil rfl
    rw [List.append_nil] at h
    exact h
  | placeholder t name rest ih =>
    simp only [Page.clean, Bool.and_eq_true] at hp
    exact takeCalls_text hp.1.1 (edge_token _ _)
      (takeCalls_token (Markup.variableName_spec hp.1.2).2 (ih hp.2 l he))
  | filtered t name f rest ih =>
    simp only [Page.clean, Bool.and_eq_true] at hp
    exact takeCalls_text hp.1.1.1 (edge_token _ _)
      (takeCalls_token (CallId.isVariableChar_memo _) (ih hp.2 l he))
  | call t name args rest ih =>
    simp only [Page.clean, Bool.and_eq_true, List.all_eq_true] at hp
    have hone : (CallTable.internList [⟨name, args⟩] l.table).Extends u :=
      (CallTable.extends_internList rest.inlineCalls _).trans he
    exact takeCalls_text hp.1.1.1 (edge_call _ _ _)
      (takeCalls_call hp.1.1.2 hone hd (ih hp.2 _ he))
  | block t name body rest ihb ih =>
    simp only [Page.clean, Bool.and_eq_true] at hp
    exact takeCalls_text hp.1.1.1 (edge_token _ _)
      (takeCalls_token (Markup.variableName_spec (isVariableName_childName hp.1.1.2)).2
        (ih hp.2 l he))

theorem scan_page {p : Page} (hp : p.clean = true) {children : List Text}
    (hc : ∀ name ∈ p.childNames, name ∈ children)
    (hr : ∀ name ∈ p.variableNames, reserved children name = false) (b : Block)
    (hb : b.content = p.surface) {table u : CallTable}
    (he : (CallTable.internList p.calls table).Extends u) (hd : u.Distinct) :
    scan .standard children table b =
      (.ok { b with
        content := p.content u.numberOf
        vars := p.variableNames.foldl addNew []
        calls := (p.calls.map u.numberOf).foldl addNew [] },
        CallTable.internList p.calls table) := by
  rw [Page.calls, CallTable.internList_append] at he ⊢
  have hfilters := takePlaceholders_surface hp hc hr { table := table }
    ((CallTable.extends_internList p.inlineCalls _).trans he) hd
  have hcalls := takeCalls_between hp
    ((({ table := table } : Listing).addVariables p.variableNames).addCalls u.numberOf p.filters)
    he hd
  rw [scan, hb, hfilters]
  simp only [hcalls]
  simp only [addCalls, addVariables, List.map_append, List.foldl_append]

end Listing

end BlockTemplate
