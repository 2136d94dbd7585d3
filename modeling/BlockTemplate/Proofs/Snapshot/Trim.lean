import BlockTemplate.Proofs.Document.Standing
import BlockTemplate.Proofs.Text.Trim
import BlockTemplate.Snapshot.Basic

/-!
# Trimmed snapshots

The content of blocks may be trimmed line by line when a snapshot is taken. A placeholder has no
blank in it, so no placeholder comes about or is lost: the snapshot refers to the same names as one
that was taken without trimming.
-/

namespace BlockTemplate

namespace Text

section Marks

variable {α : Type} {opening : Text} {read : Text → Option (α × Text)} {spell : α → Text}
  {valid : α → Prop} {c : Char} {s : Text}

structure ReadsWords (read : Text → Option (α × Text)) (spell : α → Text) (valid : α → Prop) :
    Prop where
  read_spell : ∀ v, valid v → ∀ rest, read (spell v ++ rest) = some (v, rest)
  of_read : ∀ {t v rest}, read t = some (v, rest) → t = spell v ++ rest ∧ valid v
  plain : ∀ v, valid v → ∀ c ∈ spell v, isBlank c = false

theorem not_mem_of_isBlank {w : Text} (h : ∀ c ∈ w, isBlank c = false) (hc : isBlank c = true) :
    c ∉ w := by
  intro hm
  rw [h c hm] at hc
  cases hc

theorem ReadsWords.leaves (h : ReadsWords read spell valid) : Leaves read := by
  intro t v rest hr
  exact ⟨spell v, (h.of_read hr).1.symm⟩

theorem ReadsWords.read_append_blank (h : ReadsWords read spell valid) (hc : isBlank c = true)
    (hs : read s = none) (t : Text) : read (s ++ c :: t) = none := by
  cases hr : read (s ++ c :: t) with
  | none => rfl
  | some r =>
    obtain ⟨v, rest⟩ := r
    obtain ⟨heq, hv⟩ := h.of_read hr
    -- What is read has no blank in it, so it ends before this one and is read without it as well.
    have hnot : c ∉ spell v := not_mem_of_isBlank (h.plain v hv) hc
    obtain ⟨u, rfl⟩ := prefix_of_prefix_append_cons hnot ⟨rest, heq.symm⟩
    rw [h.read_spell v hv u] at hs
    cases hs

theorem expect_append_cons (hc : c ∉ opening) (hs : expect opening s = none) (t : Text) :
    expect opening (s ++ c :: t) = none := by
  cases he : expect opening (s ++ c :: t) with
  | none => rfl
  | some rest =>
    obtain ⟨u, rfl⟩ := prefix_of_prefix_append_cons hc ⟨rest, (expect_eq_some.mp he).symm⟩
    rw [expect_append] at hs
    cases hs

theorem ReadsWords.pieces_append_blank (h : ReadsWords read spell valid) (ho : opening ≠ [])
    (hplain : ∀ c ∈ opening, isBlank c = false) (hc : isBlank c = true) (s t : Text) :
    pieces opening read (s ++ c :: t) =
      pieces opening read s ++ .char c :: pieces opening read t := by
  have hnot : c ∉ opening := not_mem_of_isBlank hplain hc
  refine pieces_induction (motive := fun s => pieces opening read (s ++ c :: t) =
    pieces opening read s ++ .char c :: pieces opening read t) ho h.leaves ?_ ?_ ?_ ?_ s
  · have hnil : expect opening [] = none := by
      obtain ⟨x, word, rfl⟩ := List.exists_cons_of_ne_nil ho
      rfl
    rw [List.nil_append, pieces_of_expect_none (expect_append_cons hnot hnil t), pieces_nil]
    rfl
  · intro x s he ih
    have he' : expect opening (x :: (s ++ c :: t)) = none := expect_append_cons hnot he t
    rw [List.cons_append, pieces_of_expect_none he', ih, pieces_of_expect_none he]
    rfl
  · intro s hr ih
    rw [List.append_assoc, pieces_of_read_none ho (h.read_append_blank hc hr t), ih,
      pieces_of_read_none ho hr, List.append_assoc]
  · intro used rest v hr ih
    obtain ⟨heq, hv⟩ := h.of_read hr
    have hused : used = spell v := List.append_cancel_right heq
    have hread : read (used ++ (rest ++ c :: t)) = some (v, rest ++ c :: t) :=
      hused ▸ h.read_spell v hv _
    rw [List.append_assoc, List.append_assoc, pieces_of_read ho hread, ih, pieces_of_read ho hr]
    rfl

theorem ReadsWords.wordwise (h : ReadsWords read spell valid) (ho : opening ≠ [])
    (hplain : ∀ c ∈ opening, isBlank c = false) :
    Wordwise fun t => (pieces opening read t).filterMap Piece.value? where
  nil := by rw [pieces_nil, List.filterMap_nil]
  blank := by
    intro c hc s t
    rw [h.pieces_append_blank ho hplain hc, List.filterMap_append, List.filterMap_cons]
    rfl

end Marks

end Text

namespace Dialect

def found (d : Dialect) (t : Text) : List Placeholder := (d.placeholders t).filterMap Piece.value?

theorem not_blank_opener : ∀ c ∈ standard.opener, Text.isBlank c = false := by
  intro c hc
  rw [show c = '\x7b' from List.mem_singleton.mp hc]
  decide

theorem readsWords_read :
    Text.ReadsWords (Placeholder.read .standard) Placeholder.body Placeholder.Proper where
  read_spell := fun _ hp => Placeholder.read_body hp
  of_read := Placeholder.read_eq_some
  plain := by
    intro p hp c hc
    rcases Placeholder.mem_body hp hc with h | rfl | rfl
    · exact Text.isBlank_of_isVariableChar h
    · decide
    · decide

theorem readsWords_readName : Text.ReadsWords (Placeholder.readName .standard) (· ++ ['\x7d'])
    fun name => Page.isVariableName name = true where
  read_spell := by
    intro name hn rest
    rw [List.append_assoc]
    exact Page.readName_token hn rest
  of_read := by
    intro t name rest h
    obtain ⟨rfl, hn⟩ := Page.readName_eq_some h
    exact ⟨by simp, hn⟩
  plain := by
    intro name hn c hc
    rcases List.mem_append.mp hc with hc | hc
    · exact Text.isBlank_of_isVariableChar ((Markup.variableName_spec hn).2 c hc)
    · rw [List.mem_singleton.mp hc]
      decide

theorem wordwise_found : Text.Wordwise standard.found :=
  readsWords_read.wordwise standard.opener_ne not_blank_opener

theorem wordwise_lookups : Text.Wordwise standard.lookups :=
  readsWords_readName.wordwise standard.opener_ne not_blank_opener

end Dialect

namespace Snapshot

open Text (Wordwise Trimmed)

variable {α : Type} {f : Text → List α} {l s : Text}

theorem lines_trimLines (s : Text) :
    Text.lines (trimLines s) = ((Text.lines s).map (Text.trim Text.isBlank)).filter (· ≠ []) := by
  refine Text.lines_join ?_ ?_
  · intro l hl
    exact of_decide_eq_true (List.mem_filter.mp hl).2
  · intro l hl hm
    obtain ⟨line, hline, rfl⟩ := List.mem_map.mp (List.mem_filter.mp hl).1
    exact Text.newline_not_mem_of_mem_lines hline ((Text.infix_of_trim _ line).subset hm)

theorem trimmed_of_mem_lines (h : l ∈ Text.lines (trimLines s)) : Trimmed Text.isBlank l := by
  rw [lines_trimLines, List.mem_filter] at h
  obtain ⟨line, -, rfl⟩ := List.mem_map.mp h.1
  exact Text.trimmed_trim (of_decide_eq_true h.2)

theorem trimLines_of_trimmed (h : ∀ l ∈ Text.lines s, Trimmed Text.isBlank l) :
    trimLines s = Text.join ['\n'] (Text.lines s) := by
  have hmap : (Text.lines s).map (Text.trim Text.isBlank) = Text.lines s :=
    (List.map_congr_left fun l hl => (h l hl).trim_eq).trans (List.map_id' _)
  have hfilter : (Text.lines s).filter (· ≠ []) = Text.lines s :=
    List.filter_eq_self.mpr fun l hl => decide_eq_true (h l hl).ne
  rw [trimLines, hmap, hfilter]

theorem trimLines_trimLines (s : Text) : trimLines (trimLines s) = trimLines s := by
  rw [trimLines_of_trimmed fun l hl => trimmed_of_mem_lines hl, lines_trimLines, trimLines]

theorem trimLines_sublist (s : Text) : (trimLines s).Sublist s :=
  (Text.join_trim_sublist _ _).trans (Text.prefix_of_join_lines s).sublist

theorem apply_trimLines (h : Wordwise f) (s : Text) : f (trimLines s) = f s := by
  calc f (trimLines s)
      = (((Text.lines s).map (Text.trim Text.isBlank)).filter (· ≠ [])).flatMap f := h.apply_join _
    _ = ((Text.lines s).map (Text.trim Text.isBlank)).flatMap f := h.flatMap_filter_ne_nil _
    _ = (Text.lines s).flatMap f := by
        rw [List.flatMap_map]
        exact List.flatMap_congr fun l _ => h.apply_trim l
    _ = f s := h.apply_lines s

/-- The first snapshot is the second with its contents trimmed. -/
structure TrimmedFrom (u v : Snapshot) : Prop where
  blocks : ∀ name, u.blocks.get? name = (v.blocks.get? name).map trimLines
  vars : u.vars = v.vars
  children : u.children = v.children
  functions : u.functions = v.functions
  inclusions : u.inclusions = v.inclusions

section Take

variable {u v : Snapshot}

theorem TrimmedFrom.addBlock (h : u.TrimmedFrom v) (t : Tree) (rename : Text → Text) (b : Block) :
    (u.addBlock t true rename b).TrimmedFrom (v.addBlock t false rename b) where
  blocks := by
    intro name
    have hu : (u.addBlock t true rename b).blocks =
        u.blocks.insert (rename b.name) (trimLines b.content) := rfl
    have hv : (v.addBlock t false rename b).blocks =
        v.blocks.insert (rename b.name) b.content := rfl
    rw [hu, hv]
    by_cases hn : name = rename b.name
    · rw [hn, Dict.get?_insert_self, Dict.get?_insert_self, Option.map_some]
    · rw [Dict.get?_insert_ne _ _ hn, Dict.get?_insert_ne _ _ hn, h.blocks]
  vars := congrArg (Dict.insert · _ _) h.vars
  children := congrArg (Dict.insert · _ _) h.children
  functions := congrArg (Dict.insert · _ _) h.functions
  inclusions := h.inclusions

theorem TrimmedFrom.addBlocks (h : u.TrimmedFrom v) (t : Tree) (rename : Text → Text)
    (es : List (BlockId × Block)) :
    (es.foldl (fun s e => s.addBlock t true rename e.2) u).TrimmedFrom
      (es.foldl (fun s e => s.addBlock t false rename e.2) v) := by
  induction es generalizing u v with
  | nil => exact h
  | cons e es ih => exact ih (h.addBlock t rename e.2)

theorem trimmedFrom_take (t : Tree) (top : BlockId) (is : List Inclusion) :
    (take t top is true).TrimmedFrom (take t top is false) := by
  have hstart : TrimmedFrom ⟨∅, ∅, ∅, ∅, is⟩ ⟨∅, ∅, ∅, ∅, is⟩ := ⟨fun _ => rfl, rfl, rfl, rfl, rfl⟩
  exact hstart.addBlocks t _ (t.preorder top)

theorem TrimmedFrom.map_blocks (h : u.TrimmedFrom v) (hf : Wordwise f) (name : Text) :
    (u.blocks.get? name).map f = (v.blocks.get? name).map f := by
  have hcomp : f ∘ trimLines = f := funext (apply_trimLines hf)
  rw [h.blocks, Option.map_map, hcomp]

end Take

/--
Trimming takes away blanks and nothing else. It leaves lines with text that neither begin nor end
with a blank, so trimming again changes nothing; the other characters keep their order; and the same
placeholders are found and the same names looked up, in the same order. So a snapshot of trimmed
content has the variables, children, calls and inclusions of one whose content is not trimmed, and
each of its blocks refers to them in the same order.
-/
theorem trimming_takes_blanks :
    (∀ s, trimLines (trimLines s) = trimLines s ∧
      (∀ l ∈ Text.lines (trimLines s), Trimmed Text.isBlank l) ∧
      (trimLines s).Sublist s ∧
      (trimLines s).filter (fun c => !Text.isBlank c) = s.filter (fun c => !Text.isBlank c) ∧
      Dialect.standard.found (trimLines s) = Dialect.standard.found s ∧
      Dialect.standard.lookups (trimLines s) = Dialect.standard.lookups s) ∧
    ∀ t top is, (take t top is true).TrimmedFrom (take t top is false) ∧
      ∀ name,
        ((take t top is true).blocks.get? name).map Dialect.standard.found =
          ((take t top is false).blocks.get? name).map Dialect.standard.found ∧
        ((take t top is true).blocks.get? name).map Dialect.standard.lookups =
          ((take t top is false).blocks.get? name).map Dialect.standard.lookups := by
  refine ⟨fun s => ⟨trimLines_trimLines s, fun l hl => trimmed_of_mem_lines hl,
    trimLines_sublist s, ?_, ?_, ?_⟩, ?_⟩
  · exact apply_trimLines Text.wordwise_filter s
  · exact apply_trimLines Dialect.wordwise_found s
  · exact apply_trimLines Dialect.wordwise_lookups s
  · intro t top is
    have htrimmed := trimmedFrom_take t top is
    refine ⟨htrimmed, fun name => ⟨?_, ?_⟩⟩
    · exact htrimmed.map_blocks Dialect.wordwise_found name
    · exact htrimmed.map_blocks Dialect.wordwise_lookups name

/-- A name that a line break parts is no placeholder, and trimming does not join its halves. -/
example : trimLines "  \x7ba\r\n \x7d \n\t\n \x7bb:h\x7d\x7b c\x7d\n".toList =
    "\x7ba\n\x7d\n\x7bb:h\x7d\x7b c\x7d".toList := by decide

end Snapshot

end BlockTemplate
