import BlockTemplate.Proofs.Document.Directive

/-!
# The grammar of tags

`Body` says, without any reader, which texts stand behind the opening of a tag. The reader takes the
longest run of each class and never goes back, yet it reads exactly these texts: no part of a tag
begins with a character of the part before it. So what is read does not depend on what follows, and
the raw text of a mark is read on its own as the tag of the mark.
-/

namespace BlockTemplate.Tag

open Text (expect expect_append expect_eq_some)

def Gap (t : Text) : Prop := t ≠ [] ∧ ∀ c ∈ t, Text.isTagBlank c = true

def Keyword.Spelled : Keyword → Text → Prop
  | .opens, w => w = "BEGIN".toList
  | .closes, w => w = "END".toList
  | .comment, w => w = "COMMENT".toList
  | .endComment, w => w = "/COMMENT".toList
  | .includes, w => w.map Char.toUpper = "INCLUDE".toList

inductive Operand : Keyword → Text → Tag → Prop
  | opens {name gap : Text} :
    Page.isBlockName name = true → Gap gap → Operand .opens (name ++ gap) (.opens name)
  | closes {name gap : Text} :
    Page.isBlockName name = true → Gap gap → Operand .closes (name ++ gap) (.closes name)
  | comment : Operand .comment [] .comment
  | endComment : Operand .endComment [] .endComment
  | includes {path gap : Text} :
    Inclusion.isPath path = true → Gap gap → Operand .includes (path ++ gap) (.includes path)

inductive Body : Text → Tag → Prop
  | intro {gap word gap' operand : Text} {k : Keyword} {tag : Tag} :
    Gap gap → k.Spelled word → Gap gap' → Operand k operand tag →
      Body (gap ++ (word ++ (gap' ++ (operand ++ "-->".toList)))) tag

theorem exists_gap {t r : Text} (h : readGap t = some r) : ∃ gap, Gap gap ∧ t = gap ++ r := by
  obtain ⟨gap, ht, hne, hall⟩ := readGap_eq_some h
  exact ⟨gap, ⟨hne, hall⟩, ht⟩

theorem readGap_of_gap {gap r : Text} (h : Gap gap)
    (hr : ∀ c ∈ r.head?, Text.isTagBlank c = false) : readGap (gap ++ r) = some r :=
  readGap_append h.1 h.2 hr

theorem exists_map_toUpper {word t r : Text} (h : expectAnyCase word t = some r) :
    ∃ w, t = w ++ r ∧ w.map Char.toUpper = word := by
  induction word generalizing t with
  | nil =>
    cases h
    exact ⟨[], rfl, rfl⟩
  | cons k word ih =>
    cases t with
    | nil => cases h
    | cons c t =>
      rw [expectAnyCase] at h
      split at h
      · rename_i hc
        obtain ⟨w, rfl, hw⟩ := ih h
        exact ⟨c :: w, rfl, by rw [List.map_cons, hc, hw]⟩
      · cases h

theorem exists_word {t r : Text} {k : Keyword} (h : Keyword.read t = some (k, r)) :
    ∃ word, t = word ++ r ∧ k.Spelled word := by
  simp only [Keyword.read, Option.orElse_eq_orElse, Option.orElse_eq_or, Option.or_eq_some_iff,
    Option.map_eq_some_iff, Prod.mk.injEq, expect_eq_some] at h
  rcases h with ⟨a, rfl, rfl, rfl⟩ | ⟨-, ⟨a, rfl, rfl, rfl⟩ | ⟨-, ⟨a, rfl, rfl, rfl⟩ |
    ⟨-, ⟨a, rfl, rfl, rfl⟩ | ⟨-, a, ha, rfl, rfl⟩⟩⟩⟩
  · exact ⟨_, rfl, rfl⟩
  · exact ⟨_, rfl, rfl⟩
  · exact ⟨_, rfl, rfl⟩
  · exact ⟨_, rfl, rfl⟩
  · exact exists_map_toUpper ha

theorem head?_word {k : Keyword} {word : Text} (h : k.Spelled word) (t : Text) :
    ∀ c ∈ (word ++ t).head?, Text.isTagBlank c = false := by
  cases k with
  | includes =>
    obtain ⟨x, xs, rfl, hx⟩ := exists_cons_of_word h
    intro c hc
    cases hc
    rcases hx with rfl | rfl <;> decide
  | _ =>
    cases h
    intro c hc
    cases hc
    decide

theorem head?_close (t : Text) : ∀ c ∈ ("-->".toList ++ t).head?, Text.isTagBlank c = false := by
  intro c hc
  cases hc
  decide

theorem head?_operand {k : Keyword} {operand : Text} {tag : Tag} (h : Operand k operand tag)
    (t : Text) : ∀ c ∈ (operand ++ ("-->".toList ++ t)).head?, Text.isTagBlank c = false := by
  cases h with
  | opens hn _ => rw [List.append_assoc]; exact head?_blockName hn _
  | closes hn _ => rw [List.append_assoc]; exact head?_blockName hn _
  | comment => exact head?_close t
  | endComment => exact head?_close t
  | @includes path gap hp _ =>
    rw [Inclusion.isPath, Bool.and_eq_true, decide_eq_true_eq, List.all_eq_true] at hp
    obtain ⟨x, xs, rfl⟩ := List.exists_cons_of_ne_nil hp.1
    intro c hc
    cases hc
    exact Text.isTagBlank_of_isBlank (by simpa using hp.2 x List.mem_cons_self)

theorem read_keyword_of_spelled {k : Keyword} {word : Text} (h : k.Spelled word) (t : Text) :
    Keyword.read (word ++ t) = some (k, t) := by
  cases k with
  | opens => cases h; exact read_keyword_opens t
  | closes => cases h; exact read_keyword_closes t
  | comment => cases h; exact read_keyword_comment t
  | endComment => cases h; exact read_keyword_endComment t
  | includes => exact read_keyword_word h t

theorem readOperand_append {p : Char → Bool} {word gap : Text} (hne : word ≠ [])
    (hall : ∀ c ∈ word, p c = true) (hp : ∀ c, Text.isTagBlank c = true → p c = false)
    (hg : Gap gap) (t : Text) :
    readOperand p ((word ++ gap) ++ ("-->".toList ++ t)) = some (word, "-->".toList ++ t) := by
  have hend : ∀ c ∈ (gap ++ ("-->".toList ++ t)).head?, p c = false := by
    obtain ⟨x, xs, rfl⟩ := List.exists_cons_of_ne_nil hg.1
    intro c hc
    cases hc
    exact hp x (hg.2 x List.mem_cons_self)
  rw [List.append_assoc]
  simp only [readOperand, Text.readSome_append hne hall hend, readGap_of_gap hg (head?_close t),
    Option.bind_eq_bind, Option.bind_some, Option.pure_def]

theorem exists_operand {p : Char → Bool} {t word r : Text}
    (h : readOperand p t = some (word, r)) :
    ∃ gap, t = (word ++ gap) ++ r ∧ word ≠ [] ∧ (∀ c ∈ word, p c = true) ∧ Gap gap := by
  obtain ⟨s, hs, hgap⟩ := readOperand_eq_some h
  obtain ⟨rfl, hne, hall, -⟩ := readSome_eq_some hs
  obtain ⟨gap, hg, rfl⟩ := exists_gap hgap
  exact ⟨gap, (List.append_assoc word gap r).symm, hne, hall, hg⟩

theorem complete_of_operand {k : Keyword} {operand : Text} {tag : Tag} (h : Operand k operand tag)
    (t : Text) :
    k.complete (operand ++ ("-->".toList ++ t)) = some (tag, "-->".toList ++ t) := by
  have hblock : ∀ c, Text.isTagBlank c = true → Text.isBlockChar c = false := by
    intro c hc
    by_contra hb
    have hv := Text.isVariableChar_of_isBlockChar (by simpa using hb)
    rw [Text.isTagBlank_of_isBlank (Text.isBlank_of_isVariableChar hv)] at hc
    cases hc
  cases h with
  | opens hn hg =>
    rw [Page.isBlockName, Bool.and_eq_true, decide_eq_true_eq, List.all_eq_true] at hn
    exact congrArg (Option.map _) (readOperand_append hn.1 hn.2 hblock hg t)
  | closes hn hg =>
    rw [Page.isBlockName, Bool.and_eq_true, decide_eq_true_eq, List.all_eq_true] at hn
    exact congrArg (Option.map _) (readOperand_append hn.1 hn.2 hblock hg t)
  | comment => rfl
  | endComment => rfl
  | includes hp hg =>
    rw [Inclusion.isPath, Bool.and_eq_true, decide_eq_true_eq, List.all_eq_true] at hp
    refine congrArg (Option.map _) (readOperand_append hp.1 hp.2 ?_ hg t)
    intro c hc
    rw [Text.isBlank_of_isTagBlank hc]
    rfl

theorem exists_of_complete {k : Keyword} {t r : Text} {tag : Tag}
    (h : k.complete t = some (tag, r)) : ∃ operand, t = operand ++ r ∧ Operand k operand tag := by
  cases k with
  | opens =>
    obtain ⟨⟨name, s⟩, hop, he⟩ := Option.map_eq_some_iff.mp h
    cases he
    obtain ⟨gap, ht, hne, hall, hg⟩ := exists_operand hop
    exact ⟨_, ht, .opens (by simpa [Page.isBlockName, hne] using hall) hg⟩
  | closes =>
    obtain ⟨⟨name, s⟩, hop, he⟩ := Option.map_eq_some_iff.mp h
    cases he
    obtain ⟨gap, ht, hne, hall, hg⟩ := exists_operand hop
    exact ⟨_, ht, .closes (by simpa [Page.isBlockName, hne] using hall) hg⟩
  | comment =>
    cases h
    exact ⟨[], rfl, .comment⟩
  | endComment =>
    cases h
    exact ⟨[], rfl, .endComment⟩
  | includes =>
    obtain ⟨⟨path, s⟩, hop, he⟩ := Option.map_eq_some_iff.mp h
    cases he
    obtain ⟨gap, ht, hne, hall, hg⟩ := exists_operand hop
    exact ⟨_, ht, .includes (by simpa [Inclusion.isPath, hne] using hall) hg⟩

theorem read_of_body {used : Text} {tag : Tag} (h : Body used tag) (r : Text) :
    read (used ++ r) = some (tag, r) := by
  cases h with
  | @intro gap word gap' operand k tag hg hw hg' ho =>
    simp only [List.append_assoc]
    exact read_eq_some (readGap_of_gap hg (head?_word hw _)) (read_keyword_of_spelled hw _)
      (readGap_of_gap hg' (head?_operand ho r)) (complete_of_operand ho r) (expect_append _ _)

theorem read_eq_some_iff {t r : Text} {tag : Tag} :
    read t = some (tag, r) ↔ ∃ used, t = used ++ r ∧ Body used tag := by
  constructor
  · intro h
    obtain ⟨t₁, t₂, t₃, t₄, k, h₁, h₂, h₃, h₄, h₅⟩ := read_cases h
    obtain ⟨gap, hg, rfl⟩ := exists_gap h₁
    obtain ⟨word, rfl, hw⟩ := exists_word h₂
    obtain ⟨gap', hg', rfl⟩ := exists_gap h₃
    obtain ⟨operand, rfl, ho⟩ := exists_of_complete h₄
    cases expect_eq_some.mp h₅
    exact ⟨_, by simp only [List.append_assoc], .intro hg hw hg' ho⟩
  · rintro ⟨used, rfl, hb⟩
    exact read_of_body hb r

theorem leaves_read : Text.Leaves read := by
  intro t tag r h
  obtain ⟨used, rfl, -⟩ := read_eq_some_iff.mp h
  exact List.suffix_append used r

theorem body_of_mem_pieces {source raw : Text} {tag : Tag} (h : .mark raw tag ∈ pieces source) :
    ∃ used, raw = opening ++ used ∧ Body used tag := by
  obtain ⟨used, rest, hraw, hread⟩ := Text.read_of_mem_pieces (by decide) leaves_read h
  obtain ⟨used', hsplit, hb⟩ := read_eq_some_iff.mp hread
  rw [List.append_cancel_right hsplit] at hraw
  exact ⟨used', hraw, hb⟩

end BlockTemplate.Tag
