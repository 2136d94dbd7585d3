import BlockTemplate.Proofs.Call.Reading
import BlockTemplate.Proofs.Fragment.Compile
import BlockTemplate.Proofs.Text.Lines

/-!
# Places of faulty calls

A scan stops at the first call whose arguments are at fault. The place that it tells is that of the
call, from the text that begins it up to what goes wrong, and the line that is shown under the message
is the one on which the call begins.
-/

namespace BlockTemplate

namespace CallSite

open Text (lineStart lineEnd unlines)

variable {width : Text → Nat}

theorem locate_append (width : Text → Nat) (all ls rest : List Text) (indent tail : Text)
    (passed start : Nat) :
    locate width all (start + (unlines ls ++ indent).size) passed start
        (ls ++ (indent ++ tail) :: rest) = some (passed + ls.length, width indent) := by
  induction ls generalizing passed start with
  | nil =>
    have hlt : start + indent.size < start + ((indent ++ tail).size + 1) := by
      rw [Text.size_append]
      omega
    have hcut : (indent ++ tail).cutAt? (start + indent.size - start) = some (indent, tail) :=
      Text.cutAt?_eq_some.mpr ⟨rfl, by omega⟩
    change locate width all (start + indent.size) passed start ((indent ++ tail) :: rest) = _
    rw [locate, if_pos hlt, hcut]
    rfl
  | cons l ls ih =>
    have hsize : start + (unlines (l :: ls) ++ indent).size =
        start + (l.size + 1) + (unlines ls ++ indent).size := by
      rw [Text.unlines_cons, List.append_assoc, Text.size_append, List.cons_append, Text.size_cons]
      change start + (l.size + (1 + _)) = _
      omega
    rw [hsize, List.cons_append, locate, if_neg (by omega), ih, List.length_cons]
    congr 2
    omega

theorem display?_append (width : Text → Nat) (message before after : Text) {call : Text}
    (hcall : call ≠ []) :
    display? width message ⟨before ++ (call ++ after), (before.size, before.size + call.size)⟩ =
      some (layout (before.count '\n' + 1) (lineStart before ++ lineEnd (call ++ after))
        (width (lineStart before)) (max 1 (width call)) message) := by
  obtain ⟨ls, indent, rfl, hls, hindent⟩ := Text.exists_unlines before
  obtain ⟨rest, hrest⟩ := Text.lines_eq_cons
    (List.append_ne_nil_of_right_ne_nil indent (List.append_ne_nil_of_left_ne_nil hcall after))
  have hlines : (unlines ls ++ indent ++ (call ++ after)).lines =
      ls ++ (indent ++ lineEnd (call ++ after)) :: rest := by
    rw [List.append_assoc, Text.lines_unlines hls, hrest, Text.lineEnd_append hindent]
  have hlocate := locate_append width (ls ++ (indent ++ lineEnd (call ++ after)) :: rest) ls rest
    indent (lineEnd (call ++ after)) 0 0
  rw [Nat.zero_add, Nat.zero_add] at hlocate
  have hcode : (ls ++ (indent ++ lineEnd (call ++ after)) :: rest)[ls.length]? =
      some (indent ++ lineEnd (call ++ after)) := by simp
  rw [display?]
  simp only [hlines, hlocate, Text.slice?_append, hcode, Option.bind_eq_bind, Option.bind_some,
    Option.some_or, Option.getD_some, Option.pure_def, Text.lineStart_unlines ls hindent,
    Text.count_unlines hls hindent]

example : display? List.length "here".toList ⟨"ä\nö func_h(,".toList, (6, 14)⟩ =
    some "\n   |\n 2 | ö func_h(,\n   |   ^^^^^^^^ here\n".toList := by decide +kernel

end CallSite

namespace Call

open Arguments (Begins)

def GoesWrong (why : CallFault) (arguments after : Text) : Prop :=
  (∃ s c, arguments = s ++ [c] ∧ Begins s ∧ ¬ Begins (s ++ [c]) ∧
    (why = .unexpected c ∨ why = .unexpectedAfterQuote c)) ∨
  why = .unexpectedEnd ∧ Begins arguments ∧ after = []

theorem faulty_of_read {used after : Text} {e : Arguments.Failure}
    (h : read (used ++ after) = some (.error e, after)) :
    ∃ name head arguments, Opens name head ∧ used = head ++ arguments ∧
      GoesWrong e.fault arguments after := by
  obtain ⟨name, head, s, hopens, hsplit, ⟨args, hr, -⟩ | ⟨e', hr, hs, hrest⟩⟩ := read_eq_some h
  · cases hr
  · cases hr
    rcases (Arguments.read_accepts_grammar s).2.2.2 e hs with
      ⟨p, c, rfl, hp, hc, he⟩ | ⟨he, hnil, hbegins⟩
    · rw [hrest, show head ++ (p ++ c :: after) = head ++ (p ++ [c]) ++ after by simp] at hsplit
      exact ⟨name, head, p ++ [c], hopens, List.append_cancel_right hsplit,
        .inl ⟨p, c, rfl, hp, hc, he⟩⟩
    · have hafter : after = [] := hrest.symm.trans hnil
      rw [hafter, List.append_nil] at hsplit
      exact ⟨name, head, s, hopens, hsplit, .inr ⟨he, hbegins, hafter⟩⟩

end Call

namespace Listing

variable {d : Dialect} {l l' : Listing} {why : CallFault} {span : Nat × Nat}

theorem Scanned.after_eq_error {written raw : Text} {r : Scanned}
    (h : r.after written raw = .error (why, span)) :
    ∃ m n, r = .error (why, m, n) ∧ span = (raw.size + m, raw.size + n) := by
  rcases r with ⟨why', m, n⟩ | text
  · cases h
    exact ⟨m, n, rfl, rfl⟩
  · cases h

def FailsAt (ps : List (Piece (Except Arguments.Failure Call))) (why : CallFault)
    (span : Nat × Nat) : Prop :=
  ∃ before call e after, ps = before ++ .mark call (.error e) :: after ∧ why = e.fault ∧
    (∀ raw r, .mark raw r ∈ before → ∃ c, r = .ok c) ∧
    span = (Text.size (before.flatMap Piece.raw),
      Text.size (before.flatMap Piece.raw) + call.size)

theorem FailsAt.cons {ps : List (Piece (Except Arguments.Failure Call))} {m n : Nat}
    (h : FailsAt ps why (m, n)) {p : Piece (Except Arguments.Failure Call)}
    (hp : ∀ raw r, p = .mark raw r → ∃ c, r = .ok c) :
    FailsAt (p :: ps) why (p.raw.size + m, p.raw.size + n) := by
  obtain ⟨before, call, e, after, rfl, he, hbefore, hspan⟩ := h
  rw [Prod.mk.injEq] at hspan
  refine ⟨p :: before, call, e, after, rfl, he, ?_, ?_⟩
  · intro raw r hm
    rcases List.mem_cons.mp hm with hm | hm
    · exact hp raw r hm.symm
    · exact hbefore raw r hm
  · rw [hspan.1, hspan.2, List.flatMap_cons, Text.size_append, Nat.add_assoc]

theorem failsAt_of_takeCalls {ps : List (Piece (Except Arguments.Failure Call))}
    (h : takeCalls d ps l = (.error (why, span), l')) : FailsAt ps why span := by
  induction ps generalizing l span with
  | nil => cases h
  | cons p ps ih =>
    cases p with
    | char c =>
      rw [takeCalls, Prod.mk.injEq] at h
      obtain ⟨m, n, hr, rfl⟩ := Scanned.after_eq_error h.1
      refine (ih (Prod.ext hr h.2)).cons ?_
      intro raw r hm
      cases hm
    | mark raw r =>
      cases r with
      | error e =>
        cases h
        exact ⟨[], raw, e, ps, rfl, rfl, by simp, by simp⟩
      | ok c =>
        rw [takeCalls, Prod.mk.injEq] at h
        obtain ⟨m, n, hr, rfl⟩ := Scanned.after_eq_error h.1
        refine (ih (Prod.ext hr h.2)).cons ?_
        intro raw' r hm
        cases hm
        exact ⟨c, rfl⟩

end Listing

/--
A content parted at its first faulty call. The call begins with the text that begins calls and a head,
and ends where its arguments go wrong; the calls found before it are calls of the grammar.
-/
structure Call.FaultyIn (d : Dialect) (content : Text) (why : CallFault)
    (before call after : Text) : Prop where
  content_eq : content = before ++ (call ++ after)
  faulty : ∃ name head arguments, Call.Opens name head ∧
    call = d.callMark ++ (head ++ arguments) ∧ Call.GoesWrong why arguments after
  earlier : ∃ ps rest, Text.pieces d.callMark Call.read content = ps ++ rest ∧
    ps.flatMap Piece.raw = before ∧
    ∀ raw r, .mark raw r ∈ ps → ∃ c used, r = .ok c ∧ raw = d.callMark ++ used ∧ c.Spelled used

theorem Call.FaultyIn.call_ne_nil {d : Dialect} {content before call after : Text} {why : CallFault}
    (h : Call.FaultyIn d content why before call after) : call ≠ [] := by
  obtain ⟨name, head, arguments, -, rfl, -⟩ := h.faulty
  exact List.append_ne_nil_of_left_ne_nil d.callMark_ne _

namespace Listing

variable {d : Dialect} {l l' : Listing} {why : CallFault} {span : Nat × Nat} {content : Text}

theorem exists_faultyIn (h : takeCalls d (Text.pieces d.callMark Call.read content) l =
      (.error (why, span), l')) :
    ∃ before call after, Call.FaultyIn d content why before call after ∧
      span = (before.size, before.size + call.size) := by
  obtain ⟨ps, call, e, qs, hpieces, rfl, hps, hspan⟩ := failsAt_of_takeCalls h
  obtain ⟨used, rfl, hread⟩ := Text.read_of_pieces_eq d.callMark_ne Call.leaves_read hpieces
  obtain ⟨name, head, arguments, hopens, rfl, hwrong⟩ := Call.faulty_of_read hread
  have hjoin := Text.flatMap_raw_pieces d.callMark_ne Call.leaves_read content
  rw [hpieces, List.flatMap_append, List.flatMap_cons] at hjoin
  refine ⟨ps.flatMap Piece.raw, _, qs.flatMap Piece.raw, ⟨hjoin.symm,
    ⟨name, head, arguments, hopens, rfl, hwrong⟩, ps, _, hpieces, rfl, ?_⟩, hspan⟩
  intro raw r hm
  obtain ⟨c, rfl⟩ := hps raw r hm
  have hmem : .mark raw (.ok c) ∈ Text.pieces d.callMark Call.read content := by
    rw [hpieces]
    exact List.mem_append_left _ hm
  obtain ⟨used, rest, rfl, hread⟩ := Text.read_of_mem_pieces d.callMark_ne Call.leaves_read hmem
  exact ⟨c, used, rfl, rfl, Call.spelled_of_read hread⟩

theorem pretty?_of_scan {children : List Text} {table : CallTable} {b : Block} {fault : Fault}
    (h : (scan d children table b).1 = .error fault) : ∃ shown, fault.pretty? = some shown := by
  rw [scan] at h
  dsimp only at h
  generalize hr : takeCalls d _ _ = scanned at h
  obtain ⟨r, l'⟩ := scanned
  cases r with
  | ok text => cases h
  | error e =>
    obtain ⟨why, span⟩ := e
    cases h
    obtain ⟨before, call, after, hfaulty, rfl⟩ := exists_faultyIn hr
    rw [hfaulty.content_eq]
    exact ⟨_, CallSite.display?_append _ _ before after hfaulty.call_ne_nil⟩

/--
Where a scan for calls fails, it tells the bytes of the faulty call. They are whole characters of the
content, and in every measure of width the line on which the call begins can be shown: under its
number, with carets under the call.
-/
theorem fault_points_at_call (h : takeCalls d (Text.pieces d.callMark Call.read content) l =
      (.error (why, span), l')) :
    span.1 < span.2 ∧ span.2 ≤ content.size ∧
    ∃ before call after, Call.FaultyIn d content why before call after ∧
      content.cutAt? span.1 = some (before, call ++ after) ∧
      content.cutAt? span.2 = some (before ++ call, after) ∧
      content.slice? span = some call ∧
      ∀ width message, CallSite.display? width message ⟨content, span⟩ =
        some (CallSite.layout (before.count '\n' + 1)
          (Text.lineStart before ++ Text.lineEnd (call ++ after))
          (width (Text.lineStart before)) (max 1 (width call)) message) := by
  obtain ⟨before, call, after, hfaulty, rfl⟩ := exists_faultyIn h
  have hcall := hfaulty.call_ne_nil
  have hpos : 0 < call.size :=
    Nat.pos_of_ne_zero fun hz => hcall (Text.size_eq_zero_iff.mp hz)
  refine ⟨Nat.lt_add_of_pos_right hpos, ?_, before, call, after, hfaulty, ?_, ?_, ?_, ?_⟩
  · rw [hfaulty.content_eq, Text.size_append, Text.size_append]
    omega
  · exact Text.cutAt?_eq_some.mpr ⟨hfaulty.content_eq, rfl⟩
  · refine Text.cutAt?_eq_some.mpr ⟨?_, Text.size_append before call⟩
    rw [List.append_assoc]
    exact hfaulty.content_eq
  · rw [hfaulty.content_eq]
    exact Text.slice?_append before call after
  · intro width message
    rw [hfaulty.content_eq]
    exact CallSite.display?_append width message before after hcall

def umlauts : Text := "ä\nö func_h('x' ü) z".toList

theorem fault_points_at_call_umlauts :
    takeCalls .standard (Text.pieces Dialect.standard.callMark Call.read umlauts)
        { table := .empty } =
      (.error (.unexpectedAfterQuote 'ü', 6, 19), { table := .empty }) ∧
    ∃ before call after,
      Call.FaultyIn .standard umlauts (.unexpectedAfterQuote 'ü') before call after ∧
      before = "ä\nö ".toList ∧ call = "func_h('x' ü".toList := by
  have h : takeCalls .standard (Text.pieces Dialect.standard.callMark Call.read umlauts)
      { table := .empty } =
      (.error (.unexpectedAfterQuote 'ü', 6, 19), { table := .empty }) := by decide +kernel
  obtain ⟨-, -, before, call, after, hfaulty, hcut, -, hslice, -⟩ := fault_points_at_call h
  have hbefore : umlauts.cutAt? 6 = some ("ä\nö ".toList, "func_h('x' ü) z".toList) := by
    decide +kernel
  have hcall : umlauts.slice? (6, 19) = some "func_h('x' ü".toList := by decide +kernel
  rw [hbefore, Option.some.injEq, Prod.mk.injEq] at hcut
  rw [hcall, Option.some.injEq] at hslice
  exact ⟨h, before, call, after, hfaulty, hcut.1.symm, hslice.symm⟩

end Listing

namespace Fragment

theorem pretty?_of_scanAll {d : Dialect} {whole : Fragment} {bs : List Block} {table : CallTable}
    {fault : Fault} (h : (scanAll d whole bs table).1 = .error fault) :
    ∃ shown, fault.pretty? = some shown := by
  induction bs generalizing table with
  | nil => cases h
  | cons b bs ih =>
    rw [scanAll] at h
    split at h
    · rename_i hs
      cases h
      exact Listing.pretty?_of_scan (congrArg Prod.fst hs)
    · rename_i b' table' hs
      cases hr : (scanAll d whole bs table').1 with
      | error fault' =>
        simp only [hr] at h
        cases h
        exact ih hr
      | ok f =>
        simp only [hr] at h
        cases h

/-- Source that does not compile has a name twice, or a faulty call that can be shown. -/
theorem pretty?_of_compile {d : Dialect} {t : Tree} {top source : Text} {replaced : Option BlockId}
    {fault : Fault} (h : (compile d t top source replaced).1 = .error fault) :
    (∃ name, fault = .duplicateBlock name) ∨ ∃ shown, fault.pretty? = some shown := by
  rw [compile] at h
  split at h
  · rename_i hx
    cases h
    exact .inl (extract_fault hx)
  · split at h
    · rename_i hnames
      cases h
      exact .inl (checkNames_fault hnames)
    · exact .inr (pretty?_of_scanAll h)

end Fragment

end BlockTemplate
