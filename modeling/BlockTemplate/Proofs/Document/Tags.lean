import BlockTemplate.Proofs.Document.Basic
import BlockTemplate.Proofs.Text.Class

/-!
# Tags of printed documents

A printed tag is read as what it was printed for. No tag begins in the text of a document, and no
tag that begins in a comment reaches into its closing tag, so comments are dropped as a whole.
-/

namespace BlockTemplate

namespace Tag

open Text (expect expect_append expect_eq_some Clear)

theorem readGap_space {t : Text} (h : ∀ c ∈ t.head?, Text.isTagBlank c = false) :
    readGap (' ' :: t) = some t := by
  have hs : Text.readSome Text.isTagBlank ([' '] ++ t) = some ([' '], t) :=
    Text.readSome_append (by simp) (List.all_eq_true.mp rfl) h
  rw [readGap]
  exact congrArg (Option.map (·.2)) hs

theorem read_keyword_opens (t : Text) : Keyword.read ("BEGIN".toList ++ t) = some (.opens, t) := by
  rw [Keyword.read, expect_append]
  rfl

theorem read_keyword_closes (t : Text) : Keyword.read ("END".toList ++ t) = some (.closes, t) := by
  have h : expect "BEGIN".toList ("END".toList ++ t) = none := rfl
  rw [Keyword.read, h, expect_append]
  rfl

theorem read_keyword_comment (t : Text) :
    Keyword.read ("COMMENT".toList ++ t) = some (.comment, t) := by
  have h₁ : expect "BEGIN".toList ("COMMENT".toList ++ t) = none := rfl
  have h₂ : expect "END".toList ("COMMENT".toList ++ t) = none := rfl
  rw [Keyword.read, h₁, h₂, expect_append]
  rfl

theorem read_keyword_endComment (t : Text) :
    Keyword.read ("/COMMENT".toList ++ t) = some (.endComment, t) := by
  have h₁ : expect "BEGIN".toList ("/COMMENT".toList ++ t) = none := rfl
  have h₂ : expect "END".toList ("/COMMENT".toList ++ t) = none := rfl
  have h₃ : expect "COMMENT".toList ("/COMMENT".toList ++ t) = none := rfl
  rw [Keyword.read, h₁, h₂, h₃, expect_append]
  rfl

theorem read_eq_some {t t₁ t₂ t₃ t₄ rest : Text} {k : Keyword} {tag : Tag}
    (h₁ : readGap t = some t₁) (h₂ : Keyword.read t₁ = some (k, t₂)) (h₃ : readGap t₂ = some t₃)
    (h₄ : k.complete t₃ = some (tag, t₄)) (h₅ : expect "-->".toList t₄ = some rest) :
    read t = some (tag, rest) := by
  simp only [read, h₁, h₂, h₃, h₄, h₅, Option.bind_eq_bind, Option.bind_some, Option.pure_def]

theorem read_blockName {name : Text} (hn : Page.isBlockName name = true) (t : Text) :
    readOperand Text.isBlockChar (name ++ ' ' :: ("-->".toList ++ t)) =
      some (name, "-->".toList ++ t) := by
  rw [Page.isBlockName, Bool.and_eq_true, decide_eq_true_eq, List.all_eq_true] at hn
  have hname : Text.readSome Text.isBlockChar (name ++ ' ' :: ("-->".toList ++ t)) =
      some (name, ' ' :: ("-->".toList ++ t)) := by
    refine Text.readSome_append hn.1 hn.2 ?_
    intro c hc
    cases hc
    decide
  have hgap : readGap (' ' :: ("-->".toList ++ t)) = some ("-->".toList ++ t) := by
    refine readGap_space ?_
    intro c hc
    cases hc
    decide
  simp only [readOperand, hname, hgap, Option.bind_eq_bind, Option.bind_some, Option.pure_def]

theorem head?_blockName {name : Text} (hn : Page.isBlockName name = true) (t : Text) :
    ∀ c ∈ (name ++ t).head?, Text.isTagBlank c = false := by
  rw [Page.isBlockName, Bool.and_eq_true, decide_eq_true_eq, List.all_eq_true] at hn
  obtain ⟨x, xs, rfl⟩ := List.exists_cons_of_ne_nil hn.1
  intro c hc
  cases hc
  have hx := Text.isVariableChar_of_isBlockChar (hn.2 x List.mem_cons_self)
  exact Text.isTagBlank_of_isBlank (Text.isBlank_of_isVariableChar hx)

theorem read_opens {name : Text} (hn : Page.isBlockName name = true) (t : Text) :
    read (" BEGIN ".toList ++ (name ++ (" -->".toList ++ t))) = some (.opens name, t) := by
  refine read_eq_some (readGap_space ?_) (read_keyword_opens _)
    (readGap_space (head?_blockName hn _)) ?_ (expect_append _ _)
  · intro c hc
    cases hc
    decide
  · rw [Keyword.complete]
    exact congrArg (Option.map _) (read_blockName hn t)

theorem read_closes {name : Text} (hn : Page.isBlockName name = true) (t : Text) :
    read (" END ".toList ++ (name ++ (" -->".toList ++ t))) = some (.closes name, t) := by
  refine read_eq_some (readGap_space ?_) (read_keyword_closes _)
    (readGap_space (head?_blockName hn _)) ?_ (expect_append _ _)
  · intro c hc
    cases hc
    decide
  · rw [Keyword.complete]
    exact congrArg (Option.map _) (read_blockName hn t)

theorem read_comment (t : Text) : read (" COMMENT -->".toList ++ t) = some (.comment, t) := by
  refine read_eq_some (readGap_space ?_) (read_keyword_comment (" -->".toList ++ t))
    (readGap_space ?_) rfl (expect_append _ _)
  · intro c hc
    cases hc
    decide
  · intro c hc
    cases hc
    decide

theorem read_endComment (t : Text) :
    read (" /COMMENT -->".toList ++ t) = some (.endComment, t) := by
  refine read_eq_some (readGap_space ?_) (read_keyword_endComment (" -->".toList ++ t))
    (readGap_space ?_) rfl (expect_append _ _)
  · intro c hc
    cases hc
    decide
  · intro c hc
    cases hc
    decide

theorem pieces_opens {name : Text} (hn : Page.isBlockName name = true) (t : Text) :
    pieces (Markup.opens name ++ t) = .mark (Markup.opens name) (.opens name) :: pieces t := by
  rw [Markup.opens, List.append_assoc]
  refine Text.pieces_of_read (by decide) ?_
  rw [List.append_assoc, List.append_assoc]
  exact read_opens hn t

theorem pieces_closes {name : Text} (hn : Page.isBlockName name = true) (t : Text) :
    pieces (Markup.closes name ++ t) = .mark (Markup.closes name) (.closes name) :: pieces t := by
  rw [Markup.closes, List.append_assoc]
  refine Text.pieces_of_read (by decide) ?_
  rw [List.append_assoc, List.append_assoc]
  exact read_closes hn t

theorem pieces_endComment (t : Text) :
    pieces (Markup.endComment ++ t) = .mark Markup.endComment .endComment :: pieces t := by
  rw [Markup.endComment, List.append_assoc]
  exact Text.pieces_of_read (by decide) (read_endComment t)

end Tag

end BlockTemplate
