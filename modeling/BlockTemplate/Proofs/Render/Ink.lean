import BlockTemplate.Proofs.Document.Splice

/-!
# Texts with protected data

Collected output is made of plain characters, tokens and protected data. A brace of data stands as a
mark that no scan takes for a token, so tokens are found wherever they stand among data. How a text
is made is told apart from the data in it: `Ink` refers to data that is set later by its number.
-/

namespace BlockTemplate

/-- A text that is known, or the one that is set by a step. -/
inductive Datum where
  | known (t : Text)
  | step (n : Nat)

namespace Datum

def text (values : Nat → Text) : Datum → Text
  | known t => t
  | step n => values n

def join (values : Nat → Text) (ds : List Datum) : Text := ds.flatMap (text values)

end Datum

/-- What collected output is made of. -/
inductive Ink where
  | char (c : Char) (plain : c ≠ '\x7b')
  | token (name : Text) (valid : Page.isVariableName name = true)
  | data (d : Datum)

namespace Dialect

def markTail : Text := "%preserved%".toList ++ ['\x7d']

theorem brace_not_mem_markTail : '\x7b' ∉ markTail := by decide

theorem protectedMark_eq : standard.protectedMark = '\x7b' :: markTail :=
  List.append_assoc ['\x7b'] "%preserved%".toList ['\x7d']

theorem protect_cons {c : Char} (hc : c ≠ '\x7b') (t : Text) :
    standard.protect (c :: t) = c :: standard.protect t := by
  have hnone : Text.expect standard.opener (c :: t) = none := by
    rw [standard, Text.expect, if_neg (Ne.symm hc)]
  exact Page.replaceAll_cons hnone _

theorem protect_brace (t : Text) :
    standard.protect ('\x7b' :: t) = '\x7b' :: (markTail ++ standard.protect t) := by
  have hself := Page.replaceAll_self standard.opener_ne standard.protectedMark t
  rw [protectedMark_eq] at hself
  rw [protect, protectedMark_eq]
  exact hself

theorem protect_eq_nil_iff {t : Text} : standard.protect t = [] ↔ t = [] := by
  cases t with
  | nil => exact iff_of_true rfl rfl
  | cons c t =>
    by_cases hc : c = '\x7b'
    · rw [hc, protect_brace]
      simp
    · rw [protect_cons hc]
      simp

theorem unprotect_cons {c : Char} (hc : c ≠ '\x7b') (t : Text) :
    standard.unprotect (c :: t) = c :: standard.unprotect t := by
  have hnone : Text.expect ('\x7b' :: markTail) (c :: t) = none := by
    rw [Text.expect, if_neg (Ne.symm hc)]
  rw [unprotect, protectedMark_eq]
  exact Page.replaceAll_cons hnone _

theorem unprotect_mark (t : Text) :
    standard.unprotect ('\x7b' :: (markTail ++ t)) = '\x7b' :: standard.unprotect t := by
  have hne : '\x7b' :: markTail ≠ [] := List.cons_ne_nil _ _
  rw [unprotect, protectedMark_eq]
  exact Page.replaceAll_self hne ['\x7b'] t

theorem unprotect_protect (v rest : Text) :
    standard.unprotect (standard.protect v ++ rest) = v ++ standard.unprotect rest := by
  induction v with
  | nil => rfl
  | cons c v ih =>
    by_cases hc : c = '\x7b'
    · subst hc
      rw [protect_brace, List.cons_append, List.append_assoc, unprotect_mark, ih, List.cons_append]
    · rw [protect_cons hc, List.cons_append, unprotect_cons hc, ih, List.cons_append]

theorem pieces_protect {α : Type} {read : Text → Option (α × Text)}
    (hread : ∀ t, read (markTail ++ t) = none) (v rest : Text) :
    Text.pieces standard.opener read (standard.protect v ++ rest) =
      (standard.protect v).map .char ++ Text.pieces standard.opener read rest := by
  induction v with
  | nil => rfl
  | cons c v ih =>
    by_cases hc : c = '\x7b'
    · subst hc
      have hclear : Text.Clear standard.opener markTail (standard.protect v ++ rest) :=
        Text.clear_of_head standard.opener_ne
          (fun c hc he => brace_not_mem_markTail (Option.some.inj he ▸ hc)) _
      have hnone := hread (standard.protect v ++ rest)
      have hstray := Text.pieces_of_read_none standard.opener_ne hnone
      rw [Text.pieces_append_of_clear hclear, ih] at hstray
      rw [protect_brace, List.cons_append, List.append_assoc, List.map_cons, List.map_append,
        List.cons_append, List.append_assoc]
      exact hstray
    · have hclear : Text.Clear standard.opener [c] (standard.protect v ++ rest) := by
        refine Text.clear_of_head (by decide) ?_ _
        intro x hx he
        rw [List.mem_singleton.mp hx] at he
        exact hc (Option.some.inj he).symm
      have hchar : Text.pieces standard.opener read ([c] ++ (standard.protect v ++ rest)) = _ :=
        Text.pieces_append_of_clear hclear
      rw [ih] at hchar
      rw [protect_cons hc]
      exact hchar

theorem fill_chars {α : Type} (f : α → Option Text) (a : Text) (ps : List (Piece α)) :
    Piece.fill f (a.map .char ++ ps) = a ++ Piece.fill f ps := by
  rw [Piece.fill, List.flatMap_append, List.flatMap_map]
  simp [Piece.fill]

theorem splice_protect (f : Text → Option Text) (v rest : Text) :
    standard.splice f (standard.protect v ++ rest) =
      standard.protect v ++ standard.splice f rest := by
  rw [splice, names, pieces_protect fun _ => rfl, fill_chars]
  rfl

theorem strip_protect (v rest : Text) :
    standard.strip (standard.protect v ++ rest) = standard.protect v ++ standard.strip rest := by
  rw [strip, pieces_protect fun _ => rfl, fill_chars]
  rfl

theorem strip_cons {c : Char} (hc : c ≠ '\x7b') (t : Text) :
    standard.strip (c :: t) = c :: standard.strip t := by
  have hnone : Text.expect standard.opener (c :: t) = none := by
    rw [standard, Text.expect, if_neg (Ne.symm hc)]
  rw [strip, Text.pieces_of_expect_none hnone]
  rfl

theorem strip_of_no_brace {t : Text} (h : '\x7b' ∉ t) : standard.strip t = t := by
  induction t with
  | nil => rfl
  | cons c t ih =>
    rw [List.mem_cons, not_or] at h
    rw [strip_cons (Ne.symm h.1), ih h.2]

theorem strip_token {name : Text} (hn : Page.isVariableName name = true) (t : Text) :
    standard.strip (Markup.token name ++ t) = standard.strip t := by
  have hread : Placeholder.readLoose standard ((name ++ ['\x7d']) ++ t) = some (name, t) := by
    obtain ⟨hne, hall⟩ := Markup.variableName_spec hn
    obtain ⟨c, cs, rfl⟩ := List.exists_cons_of_ne_nil hne
    have hblank : Text.isBlank c = false :=
      Text.isBlank_of_isVariableChar (hall c List.mem_cons_self)
    have hstart : (((c :: cs) ++ ['\x7d']) ++ t).dropWhile Text.isBlank =
        (c :: cs) ++ '\x7d' :: t := by
      rw [List.append_assoc]
      exact List.dropWhile_cons_of_neg (by rw [hblank]; decide)
    simp only [Placeholder.readLoose, hstart,
      Page.readSome_name hn (t := t) (show Text.isVariableChar '\x7d' = false by decide),
      Option.bind_eq_bind, Option.bind_some]
    rfl
  have hpieces := Text.pieces_of_read standard.opener_ne hread
  rw [Page.token_append, strip]
  refine (congrArg (Piece.fill fun _ => some []) hpieces).trans ?_
  rfl

end Dialect

namespace Ink

open Dialect

/-- Whether each opening brace begins a placeholder or the mark of a protected brace. -/
def Tidy (a : Text) : Prop :=
  ∀ s, '\x7b' :: s <:+ a → (Placeholder.readName .standard s).isSome = true ∨ markTail <+: s

theorem tidy_of_braced {a : Text} (h : Page.Braced a) : Tidy a := fun s hs => .inl (h s hs)

theorem tidy_nil : Tidy [] := fun _ hs => absurd (List.suffix_nil.mp hs) (List.cons_ne_nil _ _)

theorem Tidy.of_suffix {a b : Text} (h : Tidy a) (hb : b <:+ a) : Tidy b :=
  fun s hs => h s (hs.trans hb)

variable {values : Nat → Text}

def written (values : Nat → Text) : Ink → Text
  | char c _ => [c]
  | token name _ => Markup.token name
  | data d => standard.protect (d.text values)

def write (values : Nat → Text) (is : List Ink) : Text := is.flatMap (written values)

theorem write_append (is js : List Ink) :
    write values (is ++ js) = write values is ++ write values js :=
  List.flatMap_append

theorem exists_write {a : Text} (h : Tidy a) : ∃ is, ∀ values, write values is = a := by
  induction hn : a.length using Nat.strongRecOn generalizing a with
  | _ n ih =>
    cases a with
    | nil => exact ⟨[], fun _ => rfl⟩
    | cons c t =>
      by_cases hc : c = '\x7b'
      · subst hc
        rcases h t List.suffix_rfl with hname | hmark
        · obtain ⟨⟨name, after⟩, hread⟩ := Option.isSome_iff_exists.mp hname
          obtain ⟨rfl, hvalid⟩ := Page.readName_eq_some hread
          have hafter : after <:+ '\x7b' :: (name ++ '\x7d' :: after) :=
            ⟨'\x7b' :: (name ++ ['\x7d']), by simp⟩
          have hshort : after.length < n := by
            rw [← hn, List.length_cons, List.length_append, List.length_cons]
            omega
          obtain ⟨is, his⟩ := ih after.length hshort (h.of_suffix hafter) rfl
          refine ⟨.token name hvalid :: is, fun values => ?_⟩
          rw [Page.token_of_readName hread, ← his values]
          rfl
        · obtain ⟨after, rfl⟩ := hmark
          have hafter : after <:+ '\x7b' :: (markTail ++ after) := ⟨'\x7b' :: markTail, rfl⟩
          have hshort : after.length < n := by
            rw [← hn, List.length_cons, List.length_append]
            omega
          obtain ⟨is, his⟩ := ih after.length hshort (h.of_suffix hafter) rfl
          refine ⟨.data (.known ['\x7b']) :: is, fun values => ?_⟩
          rw [← his values]
          rfl
      · obtain ⟨is, his⟩ := ih t.length (by simp [← hn]) (h.of_suffix (List.suffix_cons c t)) rfl
        refine ⟨.char c hc :: is, fun values => ?_⟩
        rw [← his values]
        rfl

def fill (f : Text → Option (List Ink)) (is : List Ink) : List Ink :=
  is.flatMap fun
    | token name valid => (f name).getD [token name valid]
    | i => [i]

theorem splice_write (f : Text → Option (List Ink)) (is : List Ink) :
    standard.splice (fun name => (f name).map (write values)) (write values is) =
      write values (fill f is) := by
  induction is with
  | nil => rfl
  | cons i is ih =>
    cases i with
    | char c plain =>
      change standard.splice _ (c :: write values is) = c :: write values (fill f is)
      rw [Page.splice_cons plain, ih]
    | token name valid =>
      change standard.splice _ (Markup.token name ++ write values is) =
        write values ((f name).getD [token name valid] ++ fill f is)
      rw [Page.splice_token valid, ih, write_append]
      cases f name with
      | none => exact congrArg (· ++ _) (List.append_nil _).symm
      | some js => rfl
    | data d =>
      change standard.splice _ (standard.protect (d.text values) ++ write values is) =
        standard.protect (d.text values) ++ write values (fill f is)
      rw [splice_protect, ih]

def shown (is : List Ink) : List Datum :=
  is.flatMap fun
    | char c _ => [.known [c]]
    | token _ _ => []
    | data d => [d]

theorem unprotect_strip_write (is : List Ink) :
    standard.unprotect (standard.strip (write values is)) = Datum.join values (shown is) := by
  induction is with
  | nil => rfl
  | cons i is ih =>
    cases i with
    | char c plain =>
      change standard.unprotect (standard.strip (c :: write values is)) =
        c :: Datum.join values (shown is)
      rw [strip_cons plain, unprotect_cons plain, ih]
    | token name valid =>
      change standard.unprotect (standard.strip (Markup.token name ++ write values is)) =
        Datum.join values (shown is)
      rw [strip_token valid, ih]
    | data d =>
      change standard.unprotect (standard.strip
          (standard.protect (d.text values) ++ write values is)) =
        d.text values ++ Datum.join values (shown is)
      rw [strip_protect, unprotect_protect, ih]

def isVoid (is : List Ink) : Bool :=
  is.all fun
    | data (.known t) => t.isEmpty
    | _ => false

theorem write_eq_nil_iff (hv : ∀ n, values n ≠ []) (is : List Ink) :
    write values is = [] ↔ isVoid is = true := by
  rw [write, List.flatMap_eq_nil_iff, isVoid, List.all_eq_true]
  refine forall₂_congr fun i _ => ?_
  cases i with
  | char c plain => simp [written]
  | token name valid => simp [written, Markup.token, Dialect.token, standard]
  | data d =>
    rw [written, protect_eq_nil_iff]
    cases d with
    | known t => simp [Datum.text]
    | step n => simp [Datum.text, hv n]

end Ink

end BlockTemplate
