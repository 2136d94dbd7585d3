import BlockTemplate.Proofs.Document.Draft
import BlockTemplate.Proofs.Document.Strand

/-!
# Texts with tags of inclusions

The tag of an inclusion may have any blanks between its parts, and its word any case. A text with such
tags is taken apart into the text with numbered placeholders and the inclusions that these stand for.
-/

namespace BlockTemplate

structure Directive where
  before : Text
  word : Text
  between : Text
  path : Text
  after : Text
  deriving Repr, DecidableEq

namespace Directive

def print (d : Directive) : Text :=
  Tag.opening ++ (d.before ++ (d.word ++ (d.between ++ (d.path ++ (d.after ++ "-->".toList)))))

def isGap (t : Text) : Bool := t ≠ [] && t.all Text.isTagBlank

theorem gap_spec {t : Text} (h : isGap t = true) :
    t ≠ [] ∧ ∀ c ∈ t, Text.isTagBlank c = true := by
  rw [isGap, Bool.and_eq_true, decide_eq_true_eq, List.all_eq_true] at h
  exact h

structure Plain (d : Directive) : Prop where
  before : isGap d.before = true
  word : d.word.map Char.toUpper = "INCLUDE".toList
  between : isGap d.between = true
  path : Inclusion.isPath d.path = true
  after : isGap d.after = true

def standard (path : Text) : Directive := ⟨[' '], "INCLUDE".toList, [' '], path, [' ']⟩

theorem plain_standard {path : Text} (h : Inclusion.isPath path = true) : (standard path).Plain :=
  ⟨rfl, rfl, rfl, h, rfl⟩

end Directive

namespace Tag

open Text (expect expect_append)

theorem expectAnyCase_append {k word : Text} (h : word.map Char.toUpper = k) (t : Text) :
    expectAnyCase k (word ++ t) = some t := by
  induction word generalizing k with
  | nil => subst h; rfl
  | cons c word ih =>
    subst h
    rw [List.map_cons, List.cons_append, expectAnyCase, if_pos rfl, ih rfl]

theorem eq_of_toUpper {c : Char} (h : c.toUpper = 'I') : c = 'I' ∨ c = 'i' := by
  delta Char.toUpper at h
  split at h
  · right
    have hv := Char.ext_iff.mp h
    dsimp only at hv
    have hi : 'I'.val = 'i'.val + ('A'.val - 'a'.val) := by decide
    exact Char.ext ((UInt32.add_left_inj _).mp (hv.trans hi))
  · exact .inl h

theorem exists_cons_of_word {word : Text} (h : word.map Char.toUpper = "INCLUDE".toList) :
    ∃ c cs, word = c :: cs ∧ (c = 'I' ∨ c = 'i') := by
  cases word with
  | nil => cases h
  | cons c cs => exact ⟨c, cs, rfl, eq_of_toUpper (List.cons.inj h).1⟩

theorem read_keyword_word {word : Text} (h : word.map Char.toUpper = "INCLUDE".toList) (t : Text) :
    Keyword.read (word ++ t) = some (.includes, t) := by
  have hword := expectAnyCase_append h t
  obtain ⟨c, cs, rfl, hc⟩ := exists_cons_of_word h
  have hnone : ∀ k ks, k ≠ 'I' → k ≠ 'i' → expect (k :: ks) ((c :: cs) ++ t) = none := by
    intro k ks hI hi
    refine if_neg ?_
    rintro rfl
    exact hc.elim hI hi
  rw [Keyword.read, show expect "BEGIN".toList ((c :: cs) ++ t) = none from
      hnone _ _ (by decide) (by decide),
    show expect "END".toList ((c :: cs) ++ t) = none from hnone _ _ (by decide) (by decide),
    show expect "COMMENT".toList ((c :: cs) ++ t) = none from hnone _ _ (by decide) (by decide),
    show expect "/COMMENT".toList ((c :: cs) ++ t) = none from hnone _ _ (by decide) (by decide),
    hword]
  rfl

theorem read_directive {d : Directive} (h : d.Plain) (t : Text) :
    read (d.before ++ (d.word ++ (d.between ++ (d.path ++ (d.after ++ ("-->".toList ++ t)))))) =
      some (.includes d.path, t) := by
  obtain ⟨hbefore, hbefore'⟩ := Directive.gap_spec h.before
  obtain ⟨hbetween, hbetween'⟩ := Directive.gap_spec h.between
  obtain ⟨hafter, hafter'⟩ := Directive.gap_spec h.after
  have hp := h.path
  rw [Inclusion.isPath, Bool.and_eq_true, decide_eq_true_eq, List.all_eq_true] at hp
  have hword : ∀ s, ∀ c ∈ (d.word ++ s).head?, Text.isTagBlank c = false := by
    obtain ⟨x, xs, hx, hxi⟩ := exists_cons_of_word h.word
    intro s c hc
    rw [hx] at hc
    cases hc
    rcases hxi with rfl | rfl
    · decide
    · decide
  have hpath : ∀ s, ∀ c ∈ (d.path ++ s).head?, Text.isTagBlank c = false := by
    obtain ⟨x, xs, hx⟩ := List.exists_cons_of_ne_nil hp.1
    intro s c hc
    rw [hx] at hc hp
    cases hc
    exact Text.isTagBlank_of_isBlank (by simpa using hp.2 x List.mem_cons_self)
  have hclose : ∀ c ∈ ("-->".toList ++ t).head?, Text.isTagBlank c = false := by
    intro c hc
    cases hc
    decide
  have hend : ∀ c ∈ (d.after ++ ("-->".toList ++ t)).head?, (!Text.isBlank c) = false := by
    obtain ⟨x, xs, hx⟩ := List.exists_cons_of_ne_nil hafter
    intro c hc
    rw [hx] at hc hafter'
    cases hc
    rw [Text.isBlank_of_isTagBlank (hafter' x List.mem_cons_self)]
    rfl
  refine read_eq_some (readGap_append hbefore hbefore' (hword _)) (read_keyword_word h.word _)
    (readGap_append hbetween hbetween' (hpath _)) ?_ (expect_append _ _)
  have hoperand : readOperand (!Text.isBlank ·) (d.path ++ (d.after ++ ("-->".toList ++ t))) =
      some (d.path, "-->".toList ++ t) := by
    simp only [readOperand, Text.readSome_append hp.1 hp.2 hend,
      readGap_append hafter hafter' hclose, Option.bind_eq_bind, Option.bind_some, Option.pure_def]
  exact congrArg (Option.map _) hoperand

theorem pieces_directive {d : Directive} (h : d.Plain) (t : Text) :
    pieces (d.print ++ t) = .mark d.print (.includes d.path) :: pieces t := by
  have hread : read ((d.before ++ (d.word ++ (d.between ++ (d.path ++ (d.after ++
      "-->".toList))))) ++ t) = some (.includes d.path, t) := by
    have hflat := read_directive h t
    simp only [List.append_assoc] at hflat ⊢
    exact hflat
  rw [Directive.print, List.append_assoc]
  exact Text.pieces_of_read (by decide) hread

end Tag

namespace Strand

open Markup (Edge edge_nil edge_tag)

/-- A text with tags of inclusions and no other markup. -/
structure Tagged (s : Strand Directive) : Prop where
  texts : ∀ t ∈ s.texts, Page.plainText t = true
  marks : ∀ d ∈ s.marks, d.Plain

def number : (next : Nat) → List (Directive × Text) → List (Inclusion × Text)
  | _, [] => []
  | next, (d, t) :: rest => (⟨Inclusion.numbered next, d.path⟩, t) :: number (next + 1) rest

def token (i : Inclusion) : Text := Markup.token i.name

def cut (rest : List (Directive × Text)) : List (Piece Tag) :=
  rest.flatMap fun x => .mark x.1.print (.includes x.1.path) :: x.2.map .char

theorem pieces_rest {rest : List (Directive × Text)} {t : Text} (ht : Page.plainText t = true)
    (htexts : ∀ x ∈ rest, Page.plainText x.2 = true) (hmarks : ∀ x ∈ rest, x.1.Plain) :
    Tag.pieces (t ++ writeRest Directive.print rest) = t.map .char ++ cut rest := by
  induction rest generalizing t with
  | nil =>
    have hpieces := Tag.pieces_append (Markup.clear_plainText ht edge_nil)
    exact hpieces
  | cons x rest ih =>
    have hedge : Edge (x.1.print ++ (x.2 ++ writeRest Directive.print rest)) := by
      rw [Directive.print, List.append_assoc]
      exact edge_tag _
    rw [writeRest_cons, Tag.pieces_append (Markup.clear_plainText ht hedge),
      Tag.pieces_directive (hmarks x List.mem_cons_self),
      ih (htexts x List.mem_cons_self) (fun y hy => htexts y (List.mem_cons_of_mem x hy))
        (fun y hy => hmarks y (List.mem_cons_of_mem x hy))]
    rfl

theorem outside_cut (rest : List (Directive × Text)) :
    Tag.outside (cut rest) = writeRest Directive.print rest := by
  induction rest with
  | nil => rfl
  | cons x rest ih =>
    have hcut : cut (x :: rest) =
        .mark x.1.print (.includes x.1.path) :: (x.2.map .char ++ cut rest) := List.flatMap_cons
    rw [hcut, Tag.outside, Tag.outside_chars, ih, writeRest_cons]
    · rfl
    · simp

theorem mark_cut (next : Nat) (rest : List (Directive × Text)) :
    Inclusion.mark .standard next (cut rest) =
      (writeRest token (number next rest), (number next rest).map (·.1)) := by
  induction rest generalizing next with
  | nil => rfl
  | cons x rest ih =>
    have hcut : cut (x :: rest) =
        .mark x.1.print (.includes x.1.path) :: (x.2.map .char ++ cut rest) := List.flatMap_cons
    rw [hcut, Inclusion.mark, Inclusion.mark_chars, ih, number, writeRest_cons]
    rfl

theorem extract_write {s : Strand Directive} (h : s.Tagged) (next : Nat) :
    Inclusion.extract .standard next (s.write Directive.print) =
      (s.lead ++ writeRest token (number next s.rest), (number next s.rest).map (·.1)) := by
  have hpieces : Tag.pieces (s.write Directive.print) = s.lead.map .char ++ cut s.rest :=
    pieces_rest (h.texts s.lead List.mem_cons_self)
      (fun x hx => h.texts x.2 (List.mem_cons_of_mem _ (List.mem_map_of_mem hx)))
      (fun x hx => h.marks x.1 (List.mem_map_of_mem hx))
  have hstrip : Tag.stripComments (s.write Directive.print) = s.write Directive.print := by
    rw [Tag.stripComments, hpieces, Tag.outside_chars, outside_cut, write]
  rw [Inclusion.extract, hstrip, hpieces, Inclusion.mark_chars, mark_cut]

theorem mem_number {next : Nat} {rest : List (Directive × Text)} {x : Inclusion × Text}
    (h : x ∈ number next rest) :
    (∃ y ∈ rest, x.1.path = y.1.path ∧ x.2 = y.2) ∧
      ∃ k, next ≤ k ∧ k < next + rest.length ∧ x.1.name = Inclusion.numbered k := by
  induction rest generalizing next with
  | nil => cases h
  | cons y rest ih =>
    rw [List.length_cons]
    rcases List.mem_cons.mp h with rfl | h
    · exact ⟨⟨y, List.mem_cons_self, rfl, rfl⟩, next, Nat.le_refl _, by omega, rfl⟩
    · obtain ⟨⟨z, hz, hpath, htext⟩, k, hle, hlt, hk⟩ := ih h
      exact ⟨⟨z, List.mem_cons_of_mem y hz, hpath, htext⟩, k, by omega, by omega, hk⟩

theorem map_fst_number (next : Nat) (rest : List (Directive × Text)) :
    (number next rest).map (·.1) = Inclusion.number next (rest.map (·.1.path)) := by
  induction rest generalizing next with
  | nil => rfl
  | cons x rest ih => rw [number, List.map_cons, ih, List.map_cons, Inclusion.number]

theorem length_number (next : Nat) (rest : List (Directive × Text)) :
    ((number next rest).map (·.1)).length = rest.length := by
  rw [map_fst_number, Inclusion.length_number, List.length_map]

theorem nodup_number (next : Nat) (rest : List (Directive × Text)) :
    ((number next rest).map (·.1.name)).Nodup := by
  have h := Inclusion.nodup_number next (rest.map (·.1.path))
  rw [← map_fst_number, List.map_map] at h
  exact h

end Strand

end BlockTemplate
