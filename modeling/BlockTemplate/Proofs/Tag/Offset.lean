import BlockTemplate.Proofs.Tag.Grammar
import BlockTemplate.Proofs.Text.Lines

/-!
# Tags at byte offsets

`findAt` reads a tag at an offset of the source, with every place told in bytes and every text cut
out of the source between two places. It finds the tags of the grammar, it finds what `read` finds
behind the opening, and no cut that it asks for lies within a character.
-/

namespace BlockTemplate

namespace Text

variable {t s : Text}

/-- The text from a byte offset on, which must not lie within a character or behind the end. -/
def from? (t : Text) (i : Nat) : Option Text := (cutAt? i t).map (·.2)

def measure (p : Char → Bool) (t : Text) : Nat := size (t.takeWhile p)

/-- An offset between two characters, or at an end of the text. -/
def IsBoundary (t : Text) (i : Nat) : Prop := ∃ before after, t = before ++ after ∧ before.size = i

theorem from?_append (before after : Text) : from? (before ++ after) before.size = some after := by
  rw [from?, cutAt?_eq_some.mpr ⟨rfl, rfl⟩]
  rfl

theorem exists_of_from? {i : Nat} {after : Text} (h : from? t i = some after) :
    ∃ before, t = before ++ after ∧ before.size = i := by
  obtain ⟨⟨before, after'⟩, hcut, rfl⟩ := Option.map_eq_some_iff.mp h
  exact ⟨before, cutAt?_eq_some.mp hcut⟩

theorem exists_of_slice? {i j : Nat} (h : slice? t (i, j) = some s) :
    ∃ before after, t = before ++ (s ++ after) ∧ before.size = i ∧ (before ++ s).size = j := by
  simp only [slice?, Option.bind_eq_bind, Option.bind_eq_some_iff, Option.pure_def,
    Option.some.injEq, Prod.exists] at h
  obtain ⟨upTo, after, hupTo, before, s', hs, rfl⟩ := h
  obtain ⟨rfl, hj⟩ := cutAt?_eq_some.mp hupTo
  obtain ⟨rfl, hi⟩ := cutAt?_eq_some.mp hs
  exact ⟨before, after, List.append_assoc before s' after, hi, hj⟩

theorem measure_append {p : Char → Bool} {a rest : Text} (ha : ∀ c ∈ a, p c = true)
    (hr : ∀ c ∈ rest.head?, p c = false) : measure p (a ++ rest) = a.size := by
  rw [measure, takeWhile_append ha hr]

theorem measure_eq_zero_iff {p : Char → Bool} : measure p t = 0 ↔ readSome p t = none := by
  rw [measure, size_eq_zero_iff, readSome]
  cases t.takeWhile p <;> simp

end Text

namespace Tag

open Text (expect expect_append expect_eq_some)

inductive Finding where
  | found (tag : Tag) (stop : Nat)
  | absent
  /-- a cut was asked for within a character or behind the end -/
  | broken
  deriving Repr, DecidableEq

def Keyword.measure (t : Text) : Option (Keyword × Nat) :=
  if "BEGIN".toList.isPrefixOf t then some (.opens, 5)
  else if "END".toList.isPrefixOf t then some (.closes, 3)
  else if "COMMENT".toList.isPrefixOf t then some (.comment, 7)
  else if "/COMMENT".toList.isPrefixOf t then some (.endComment, 8)
  -- the seven bytes may end within a character, and then they are no keyword
  else if (t.slice? (0, 7)).any (·.map Char.toUpper = "INCLUDE".toList) then some (.includes, 7)
  else none

section Reader

variable (source : Text)

def gapAt (j : Nat) (next : Nat → Finding) : Finding :=
  match source.from? j with
  | none => .broken
  | some t =>
    if Text.measure Text.isTagBlank t = 0 then .absent
    else next (j + Text.measure Text.isTagBlank t)

def keywordAt (j : Nat) (next : Keyword → Nat → Finding) : Finding :=
  match source.from? j with
  | none => .broken
  | some t =>
    match Keyword.measure t with
    | none => .absent
    | some (k, n) => next k (j + n)

def wordAt (p : Char → Bool) (j : Nat) (next : Text → Nat → Finding) : Finding :=
  match source.from? j with
  | none => .broken
  | some t =>
    if Text.measure p t = 0 then .absent
    else
      match source.slice? (j, j + Text.measure p t) with
      | none => .broken
      | some word => gapAt source (j + Text.measure p t) (next word)

def operandAt (k : Keyword) (j : Nat) (next : Tag → Nat → Finding) : Finding :=
  match k with
  | .opens => wordAt source Text.isBlockChar j fun name => next (.opens name)
  | .closes => wordAt source Text.isBlockChar j fun name => next (.closes name)
  | .comment => next .comment j
  | .endComment => next .endComment j
  | .includes => wordAt source (!Text.isBlank ·) j fun path => next (.includes path)

def closeAt (tag : Tag) (j : Nat) : Finding :=
  match source.from? j with
  | none => .broken
  | some t => if "-->".toList.isPrefixOf t then .found tag (j + 3) else .absent

/-- Reads the tag at a byte offset of the source. -/
def findAt (i : Nat) : Finding :=
  match source.from? i with
  | none => .absent
  | some t =>
    if opening.isPrefixOf t then
      gapAt source (i + 4) fun j =>
      keywordAt source j fun k j =>
      gapAt source j fun j =>
      operandAt source k j (closeAt source)
    else .absent

end Reader

def Written (w : Text) (tag : Tag) : Prop := ∃ used, w = opening ++ used ∧ Body used tag

theorem isPrefixOf_append (w t : Text) : w.isPrefixOf (w ++ t) = true :=
  List.isPrefixOf_iff_prefix.mpr (List.prefix_append w t)

theorem isPrefixOf_eq_false_iff {w t : Text} : w.isPrefixOf t = false ↔ expect w t = none := by
  rw [Bool.eq_false_iff, ne_eq, List.isPrefixOf_iff_prefix, Option.eq_none_iff_forall_ne_some]
  simp only [ne_eq, expect_eq_some]
  constructor
  · rintro h rest rfl
    exact h (List.prefix_append w rest)
  · rintro h ⟨rest, rfl⟩
    exact h rest rfl

theorem utf8Size_of_toUpper {c : Char} (h : c.toUpper.utf8Size = 1) : c.utf8Size = 1 := by
  have hlower : c.toUpper = c ∨ c.val ≤ 122 := by
    delta Char.toUpper
    split
    · rename_i hl
      exact .inr hl.2
    · exact .inl rfl
  rcases hlower with he | hle
  · rwa [he] at h
  · rw [Char.utf8Size_eq_one_iff]
    exact UInt32.le_trans hle (by decide)

theorem size_of_map_toUpper {w : Text} (h : ∀ c ∈ w.map Char.toUpper, c.utf8Size = 1) :
    w.size = w.length := by
  induction w with
  | nil => rfl
  | cons c w ih =>
    have hc := utf8Size_of_toUpper (h c.toUpper (List.mem_map_of_mem List.mem_cons_self))
    rw [Text.size_cons, hc, ih fun d hd => h d (List.mem_cons_of_mem _ hd), List.length_cons,
      Nat.add_comm]

theorem size_of_spelled {w : Text} (h : Keyword.includes.Spelled w) : w.size = 7 := by
  have hup : w.map Char.toUpper = "INCLUDE".toList := h
  have hascii : ∀ c ∈ w.map Char.toUpper, c.utf8Size = 1 := by
    rw [hup]
    simp [Char.utf8Size]
  rw [size_of_map_toUpper hascii, ← List.length_map Char.toUpper, hup]
  rfl

theorem measure_of_read {t r : Text} {k : Keyword} (h : Keyword.read t = some (k, r)) :
    ∃ word, t = word ++ r ∧ Keyword.measure t = some (k, word.size) := by
  simp only [Keyword.read, Option.orElse_eq_orElse, Option.orElse_eq_or, Option.or_eq_some_iff,
    Option.map_eq_some_iff, Option.map_eq_none_iff, Prod.mk.injEq, expect_eq_some,
    ← isPrefixOf_eq_false_iff] at h
  rcases h with ⟨a, rfl, rfl, rfl⟩ | ⟨h₁, ⟨a, rfl, rfl, rfl⟩ | ⟨h₂, ⟨a, rfl, rfl, rfl⟩ |
    ⟨h₃, ⟨a, rfl, rfl, rfl⟩ | ⟨h₄, a, ha, rfl, rfl⟩⟩⟩⟩
  · exact ⟨_, rfl, by rw [Keyword.measure, isPrefixOf_append]; rfl⟩
  · exact ⟨_, rfl, by rw [Keyword.measure, h₁, isPrefixOf_append]; rfl⟩
  · exact ⟨_, rfl, by rw [Keyword.measure, h₁, h₂, isPrefixOf_append]; rfl⟩
  · exact ⟨_, rfl, by rw [Keyword.measure, h₁, h₂, h₃, isPrefixOf_append]; rfl⟩
  · obtain ⟨word, rfl, hword⟩ := exists_map_toUpper ha
    have hslice : (word ++ a).slice? (0, 7) = some word := by
      have hs := Text.slice?_append [] word a
      rwa [Text.size_nil, Nat.zero_add, size_of_spelled hword] at hs
    refine ⟨word, rfl, ?_⟩
    rw [Keyword.measure, h₁, h₂, h₃, h₄, hslice, Option.any_some, decide_eq_true hword,
      size_of_spelled hword]
    rfl

theorem measure_of_read_none {t : Text} (h : Keyword.read t = none) : Keyword.measure t = none := by
  simp only [Keyword.read, Option.orElse_eq_orElse, Option.orElse_eq_or, Option.or_eq_none_iff,
    Option.map_eq_none_iff, ← isPrefixOf_eq_false_iff] at h
  obtain ⟨h₁, h₂, h₃, h₄, h₅⟩ := h
  have hslice : (t.slice? (0, 7)).any (·.map Char.toUpper = "INCLUDE".toList) = false := by
    rw [Bool.eq_false_iff, ne_eq, Option.any_eq_true]
    rintro ⟨w, hw, hup⟩
    obtain ⟨before, after, rfl, hbefore, -⟩ := Text.exists_of_slice? hw
    rw [Text.size_eq_zero_iff.mp hbefore, List.nil_append,
      expectAnyCase_append (of_decide_eq_true hup)] at h₅
    cases h₅
  rw [Keyword.measure, h₁, h₂, h₃, h₄, hslice]
  rfl

section Append

variable {source before t r : Text}

theorem gapAt_of_none (hs : source = before ++ t) (h : readGap t = none) (next : Nat → Finding) :
    gapAt source before.size next = .absent := by
  subst hs
  rw [readGap, Option.map_eq_none_iff] at h
  rw [gapAt, Text.from?_append]
  exact if_pos (Text.measure_eq_zero_iff.mpr h)

theorem gapAt_of_some (hs : source = before ++ t) (h : readGap t = some r)
    (next : Nat → Finding) : ∃ before', source = before' ++ r ∧
      gapAt source before.size next = next before'.size := by
  subst hs
  obtain ⟨⟨gap, r'⟩, hsome, rfl⟩ := Option.map_eq_some_iff.mp h
  obtain ⟨rfl, hne, hall, hhead⟩ := readSome_eq_some hsome
  refine ⟨before ++ gap, (List.append_assoc before gap r').symm, ?_⟩
  rw [gapAt, Text.from?_append]
  dsimp only
  rw [Text.measure_append hall hhead, if_neg (mt Text.size_eq_zero_iff.mp hne), Text.size_append]

theorem keywordAt_of_none (hs : source = before ++ t) (h : Keyword.read t = none)
    (next : Keyword → Nat → Finding) : keywordAt source before.size next = .absent := by
  subst hs
  rw [keywordAt, Text.from?_append]
  dsimp only
  rw [measure_of_read_none h]

theorem keywordAt_of_some {k : Keyword} (hs : source = before ++ t)
    (h : Keyword.read t = some (k, r)) (next : Keyword → Nat → Finding) :
    ∃ before', source = before' ++ r ∧
      keywordAt source before.size next = next k before'.size := by
  subst hs
  obtain ⟨word, rfl, hm⟩ := measure_of_read h
  refine ⟨before ++ word, (List.append_assoc before word r).symm, ?_⟩
  rw [keywordAt, Text.from?_append]
  dsimp only
  rw [hm, Text.size_append]

theorem wordAt_of_readSome {p : Char → Bool} {word : Text} (hs : source = before ++ t)
    (h : Text.readSome p t = some (word, r)) (next : Text → Nat → Finding) :
    source = (before ++ word) ++ r ∧
      wordAt source p before.size next = gapAt source (before ++ word).size (next word) := by
  obtain ⟨rfl, hne, hall, hhead⟩ := readSome_eq_some h
  subst hs
  refine ⟨(List.append_assoc before word r).symm, ?_⟩
  rw [wordAt, Text.from?_append]
  dsimp only
  rw [Text.measure_append hall hhead, if_neg (mt Text.size_eq_zero_iff.mp hne),
    Text.slice?_append, Text.size_append]

theorem wordAt_of_none {p : Char → Bool} (hs : source = before ++ t)
    (h : readOperand p t = none) (next : Text → Nat → Finding) :
    wordAt source p before.size next = .absent := by
  cases hr : Text.readSome p t with
  | none =>
    subst hs
    rw [wordAt, Text.from?_append]
    exact if_pos (Text.measure_eq_zero_iff.mpr hr)
  | some o =>
    obtain ⟨word, r⟩ := o
    obtain ⟨hs', hword⟩ := wordAt_of_readSome hs hr next
    simp only [readOperand, hr, Option.bind_eq_bind, Option.bind_some, Option.bind_eq_none_iff,
      Option.pure_def, reduceCtorEq, imp_false] at h
    rw [hword]
    exact gapAt_of_none hs' (Option.eq_none_iff_forall_ne_some.mpr h) _

theorem wordAt_of_some {p : Char → Bool} {word : Text} (hs : source = before ++ t)
    (h : readOperand p t = some (word, r)) (next : Text → Nat → Finding) :
    ∃ before', source = before' ++ r ∧
      wordAt source p before.size next = next word before'.size := by
  obtain ⟨s, hsome, hgap⟩ := readOperand_eq_some h
  obtain ⟨hs', hword⟩ := wordAt_of_readSome hs hsome next
  rw [hword]
  exact gapAt_of_some hs' hgap (next word)

theorem operandAt_of_none {k : Keyword} (hs : source = before ++ t) (h : k.complete t = none)
    (next : Tag → Nat → Finding) : operandAt source k before.size next = .absent := by
  cases k with
  | opens => exact wordAt_of_none hs (Option.map_eq_none_iff.mp h) _
  | closes => exact wordAt_of_none hs (Option.map_eq_none_iff.mp h) _
  | comment => cases h
  | endComment => cases h
  | includes => exact wordAt_of_none hs (Option.map_eq_none_iff.mp h) _

theorem operandAt_of_some {k : Keyword} {tag : Tag} (hs : source = before ++ t)
    (h : k.complete t = some (tag, r)) (next : Tag → Nat → Finding) :
    ∃ before', source = before' ++ r ∧
      operandAt source k before.size next = next tag before'.size := by
  cases k with
  | opens =>
    obtain ⟨⟨name, r'⟩, hop, he⟩ := Option.map_eq_some_iff.mp h
    cases he
    exact wordAt_of_some hs hop _
  | closes =>
    obtain ⟨⟨name, r'⟩, hop, he⟩ := Option.map_eq_some_iff.mp h
    cases he
    exact wordAt_of_some hs hop _
  | comment =>
    cases h
    exact ⟨before, hs, rfl⟩
  | endComment =>
    cases h
    exact ⟨before, hs, rfl⟩
  | includes =>
    obtain ⟨⟨path, r'⟩, hop, he⟩ := Option.map_eq_some_iff.mp h
    cases he
    exact wordAt_of_some hs hop _

theorem closeAt_of_none (hs : source = before ++ t) (h : expect "-->".toList t = none) (tag : Tag) :
    closeAt source tag before.size = .absent := by
  subst hs
  rw [closeAt, Text.from?_append]
  dsimp only
  rw [isPrefixOf_eq_false_iff.mpr h]
  rfl

theorem closeAt_append (hs : source = before ++ ("-->".toList ++ r)) (tag : Tag) :
    closeAt source tag before.size = .found tag (before ++ "-->".toList).size := by
  subst hs
  rw [closeAt, Text.from?_append]
  dsimp only
  rw [isPrefixOf_append, if_pos rfl, Text.size_append]
  rfl

end Append

def Finding.ofRead (source : Text) : Option (Tag × Text) → Finding
  | none => .absent
  | some (tag, rest) => .found tag (source.size - rest.size)

theorem findAt_append (before t : Text) : findAt (before ++ t) before.size =
    .ofRead (before ++ t) ((expect opening t).bind read) := by
  rw [findAt, Text.from?_append]
  dsimp only
  cases ho : expect opening t with
  | none =>
    rw [isPrefixOf_eq_false_iff.mpr ho]
    rfl
  | some t₀ =>
    have ht := expect_eq_some.mp ho
    have hs : before ++ t = (before ++ opening) ++ t₀ := by rw [ht, List.append_assoc]
    have hj : before.size + 4 = (before ++ opening).size := by
      rw [Text.size_append]
      rfl
    rw [Option.bind_some, ht, isPrefixOf_append, if_pos rfl, ← ht, hj, read]
    simp only [Option.bind_eq_bind, Option.pure_def]
    -- Stage by stage both readers stop, or go on behind the same characters.
    cases h₁ : readGap t₀ with
    | none => exact gapAt_of_none hs h₁ _
    | some t₁ =>
      obtain ⟨b₁, hs₁, hf₁⟩ := gapAt_of_some hs h₁ _
      rw [hf₁, Option.bind_some]
      cases h₂ : Keyword.read t₁ with
      | none => exact keywordAt_of_none hs₁ h₂ _
      | some o₂ =>
        obtain ⟨k, t₂⟩ := o₂
        obtain ⟨b₂, hs₂, hf₂⟩ := keywordAt_of_some hs₁ h₂ _
        rw [hf₂, Option.bind_some]
        cases h₃ : readGap t₂ with
        | none => exact gapAt_of_none hs₂ h₃ _
        | some t₃ =>
          obtain ⟨b₃, hs₃, hf₃⟩ := gapAt_of_some hs₂ h₃ _
          rw [hf₃, Option.bind_some]
          cases h₄ : k.complete t₃ with
          | none => exact operandAt_of_none hs₃ h₄ _
          | some o₄ =>
            obtain ⟨tag, t₄⟩ := o₄
            obtain ⟨b₄, hs₄, hf₄⟩ := operandAt_of_some hs₃ h₄ _
            rw [hf₄, Option.bind_some]
            cases h₅ : expect "-->".toList t₄ with
            | none => exact closeAt_of_none hs₄ h₅ tag
            | some r =>
              rw [expect_eq_some.mp h₅] at hs₄
              rw [closeAt_append hs₄ tag, Option.bind_some, hs₄]
              simp only [Finding.ofRead, Text.size_append, Finding.found.injEq, true_and]
              omega

variable {source w w' : Text} {tag tag' : Tag} {i e e' : Nat}

theorem findAt_of_not_boundary (h : source.from? i = none) : findAt source i = .absent := by
  rw [findAt, h]

theorem findAt_eq_found_iff :
    findAt source i = .found tag e ↔ ∃ w, source.slice? (i, e) = some w ∧ Written w tag := by
  constructor
  · intro h
    cases hi : source.from? i with
    | none =>
      rw [findAt_of_not_boundary hi] at h
      cases h
    | some t =>
      obtain ⟨before, rfl, rfl⟩ := Text.exists_of_from? hi
      rw [findAt_append] at h
      cases hr : (expect opening t).bind read with
      | none =>
        rw [hr] at h
        cases h
      | some o =>
        obtain ⟨tag', r⟩ := o
        rw [hr, Finding.ofRead, Finding.found.injEq] at h
        obtain ⟨rfl, rfl⟩ := h
        obtain ⟨t₀, ht₀, hread⟩ := Option.bind_eq_some_iff.mp hr
        obtain ⟨used, rfl, hb⟩ := read_eq_some_iff.mp hread
        have ht : t = (opening ++ used) ++ r := by rw [expect_eq_some.mp ht₀, List.append_assoc]
        refine ⟨opening ++ used, ?_, used, rfl, hb⟩
        have hslice := Text.slice?_append before (opening ++ used) r
        rw [ht, ← hslice]
        congr 2
        simp only [Text.size_append]
        omega
  · rintro ⟨w, hw, used, rfl, hb⟩
    obtain ⟨before, after, rfl, rfl, rfl⟩ := Text.exists_of_slice? hw
    rw [findAt_append, List.append_assoc opening, expect_append, Option.bind_some,
      read_of_body hb, Finding.ofRead]
    congr 1
    simp only [Text.size_append]
    omega

theorem findAt_ne_broken : findAt source i ≠ .broken := by
  cases hi : source.from? i with
  | none =>
    rw [findAt_of_not_boundary hi]
    exact Finding.noConfusion
  | some t =>
    obtain ⟨before, rfl, rfl⟩ := Text.exists_of_from? hi
    rw [findAt_append]
    cases (expect opening t).bind read <;> exact Finding.noConfusion

theorem Written.unique (hw : source.slice? (i, e) = some w) (h : Written w tag)
    (hw' : source.slice? (i, e') = some w') (h' : Written w' tag') : e = e' ∧ tag = tag' := by
  have hfound := findAt_eq_found_iff.mpr ⟨w, hw, h⟩
  rw [findAt_eq_found_iff.mpr ⟨w', hw', h'⟩, Finding.found.injEq] at hfound
  exact ⟨hfound.2.symm, hfound.1.symm⟩

theorem findAt_mark {before after : List (Piece Tag)} {raw : Text}
    (h : pieces source = before ++ .mark raw tag :: after) :
    findAt source (Text.size (before.flatMap Piece.raw)) =
      .found tag (Text.size (before.flatMap Piece.raw) + raw.size) := by
  have ho : opening ≠ [] := by decide
  obtain ⟨used, rfl, hread⟩ := Text.read_of_pieces_eq ho leaves_read h
  obtain ⟨used', hused, hb⟩ := read_eq_some_iff.mp hread
  rw [← List.append_cancel_right hused] at hb
  have hsource := Text.flatMap_raw_pieces ho leaves_read source
  rw [show Text.pieces opening read source = _ from h, List.flatMap_append, List.flatMap_cons,
    Piece.raw] at hsource
  rw [← hsource]
  exact findAt_eq_found_iff.mpr ⟨_, Text.slice?_append _ (opening ++ used) _, used, rfl, hb⟩

/--
A tag is found at a byte offset of a source exactly if the bytes from there to its end are a tag of
the grammar, and it is the one that is written. One tag at most fits, it ends between characters, no
cut lies within a character, and the scan of the source reads the same tags.
-/
theorem findAt_reads_grammar (source : Text) (i : Nat) :
    (∀ tag e, findAt source i = .found tag e ↔
      ∃ w, source.slice? (i, e) = some w ∧ Written w tag) ∧
    (∀ w w' tag tag' e e', source.slice? (i, e) = some w → Written w tag →
      source.slice? (i, e') = some w' → Written w' tag' → e = e' ∧ tag = tag') ∧
    (∀ tag e, findAt source i = .found tag e → source.IsBoundary e) ∧
    findAt source i ≠ .broken ∧
    (∀ before after, source = before ++ after → before.size = i →
      findAt source i = .ofRead source ((expect opening after).bind read)) ∧
    ∀ before raw tag after, pieces source = before ++ .mark raw tag :: after →
      Text.size (before.flatMap Piece.raw) = i → findAt source i = .found tag (i + raw.size) := by
  refine ⟨fun tag e => findAt_eq_found_iff, ?_, ?_, findAt_ne_broken, ?_, ?_⟩
  · intro w w' tag tag' e e' hw h hw' h'
    exact Written.unique hw h hw' h'
  · intro tag e h
    obtain ⟨w, hw, -⟩ := findAt_eq_found_iff.mp h
    obtain ⟨before, after, hsource, -, he⟩ := Text.exists_of_slice? hw
    exact ⟨before ++ w, after, by rw [hsource, List.append_assoc], he⟩
  · rintro before after rfl rfl
    exact findAt_append before after
  · rintro before raw tag after h rfl
    exact findAt_mark h

/-- Two wide letters before the tag, a mixed keyword and a path with a comment opening in it. -/
theorem findAt_reads_grammar_wide :
    findAt "äö<!-- Include ü<!--.html\t-->!".toList 4 = .found (.includes "ü<!--.html".toList) 32 ∧
      Text.slice? "äö<!-- Include ü<!--.html\t-->!".toList (4, 32) =
        some "<!-- Include ü<!--.html\t-->".toList ∧
      Written "<!-- Include ü<!--.html\t-->".toList (.includes "ü<!--.html".toList) := by
  have hslice : Text.slice? "äö<!-- Include ü<!--.html\t-->!".toList (4, 32) =
      some "<!-- Include ü<!--.html\t-->".toList := by decide +kernel
  have hfound : findAt "äö<!-- Include ü<!--.html\t-->!".toList 4 =
      .found (.includes "ü<!--.html".toList) 32 := by decide +kernel
  obtain ⟨w, hw, hwritten⟩ := ((findAt_reads_grammar _ 4).1 _ _).mp hfound
  rw [hslice, Option.some.injEq] at hw
  exact ⟨hfound, hslice, hw ▸ hwritten⟩

end Tag

end BlockTemplate
