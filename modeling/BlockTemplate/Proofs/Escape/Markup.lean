import BlockTemplate.Escape.Html
import BlockTemplate.Escape.Script
import BlockTemplate.Proofs.Escape.Coded
import BlockTemplate.Proofs.Text.Cut

/-!
# Reading escapes of markup and scripts

Escaped markup is text of plain characters and references, an escaped script literal one of plain
characters and escapes with a backslash. Reading them from left to right gives the text back, so a
text that looks like a reference or an escape is not taken for one.
-/

namespace BlockTemplate.Escape

open Text (expect expect_append)

def namedReferences : List Text :=
  ["&amp;".toList, "&quot;".toList, "&lt;".toList, "&gt;".toList]

def IsDecimalReference (w : Text) : Prop :=
  ∃ digits, w = "&#".toList ++ (digits ++ [';']) ∧ digits ≠ [] ∧ ∀ c ∈ digits, c.isDigit = true

def readDecimal (t : Text) : Option (Char × Text) := do
  let (digits, t) ← Text.readSome Char.isDigit t
  let t ← expect [';'] t
  return (Char.ofNat (Nat.ofDigitChars 10 digits 0), t)

def readReference (t : Text) : Option (Char × Text) :=
  ((expect "amp;".toList t).map ('&', ·)) <|>
  ((expect "quot;".toList t).map ('"', ·)) <|>
  ((expect "lt;".toList t).map ('<', ·)) <|>
  ((expect "gt;".toList t).map ('>', ·)) <|>
  ((expect ['#'] t).bind readDecimal)

/-- The text with references, named and decimal ones, replaced by their characters. -/
def decodeReferences : Text → Text := decodeWith '&' readReference

def PlainMarkup (c : Char) : Prop := c ≠ '&' ∧ c ≠ '"' ∧ c ≠ '<' ∧ c ≠ '>'

theorem htmlChar_cases (c : Char) :
    (c = '&' ∧ htmlChar c = "&amp;".toList) ∨ (c = '"' ∧ htmlChar c = "&quot;".toList) ∨
    (c = '<' ∧ htmlChar c = "&lt;".toList) ∨ (c = '>' ∧ htmlChar c = "&gt;".toList) ∨
    (PlainMarkup c ∧ htmlChar c = [c]) := by
  by_cases h₁ : c = '&'
  · exact .inl ⟨h₁, by rw [h₁]; rfl⟩
  by_cases h₂ : c = '"'
  · exact .inr (.inl ⟨h₂, by rw [h₂]; rfl⟩)
  by_cases h₃ : c = '<'
  · exact .inr (.inr (.inl ⟨h₃, by rw [h₃]; rfl⟩))
  by_cases h₄ : c = '>'
  · exact .inr (.inr (.inr (.inl ⟨h₄, by rw [h₄]; rfl⟩)))
  · refine .inr (.inr (.inr (.inr ⟨⟨h₁, h₂, h₃, h₄⟩, ?_⟩)))
    rw [htmlChar, if_neg h₁, if_neg h₂, if_neg h₃, if_neg h₄]

def htmlAsciiChar (c : Char) : Text := (htmlChar c).flatMap asciiChar

theorem htmlAscii_eq_flatMap (t : Text) : htmlAscii t = t.flatMap htmlAsciiChar :=
  List.flatMap_assoc

theorem htmlAsciiChar_of_plain {c : Char} (h : PlainMarkup c) : htmlAsciiChar c = asciiChar c := by
  rcases htmlChar_cases c with ⟨rfl, -⟩ | ⟨rfl, -⟩ | ⟨rfl, -⟩ | ⟨rfl, -⟩ | ⟨-, hc⟩
  · exact absurd rfl h.1
  · exact absurd rfl h.2.1
  · exact absurd rfl h.2.2.1
  · exact absurd rfl h.2.2.2
  · rw [htmlAsciiChar, hc, List.flatMap_singleton]

theorem isDigit_of_mem_decimal {n : Nat} {c : Char} (h : c ∈ Text.decimal n) : c.isDigit = true :=
  Nat.isDigit_of_mem_toDigits (by decide) (by decide) h

theorem decimal_ne_nil (n : Nat) : Text.decimal n ≠ [] := Nat.toDigits_ne_nil

theorem isDecimalReference (c : Char) : IsDecimalReference (decimalReference c) :=
  ⟨Text.decimal c.toNat, by rw [decimalReference, List.append_assoc], decimal_ne_nil _,
    fun _ hd => isDigit_of_mem_decimal hd⟩

theorem readDecimal_decimal (c : Char) (rest : Text) :
    readDecimal (Text.decimal c.toNat ++ ([';'] ++ rest)) = some (c, rest) := by
  have hsemi : ∀ d ∈ ([';'] ++ rest).head?, d.isDigit = false := by
    intro d hd
    cases hd
    decide
  have hsome := Text.readSome_append (decimal_ne_nil c.toNat)
    (fun d hd => isDigit_of_mem_decimal hd) hsemi
  have hnumber : Nat.ofDigitChars 10 (Text.decimal c.toNat) 0 = c.toNat :=
    Nat.ofDigitChars_toDigits (by decide) (by decide)
  simp only [readDecimal, hsome, expect_append, Option.bind_eq_bind, Option.bind_some,
    Option.pure_def, hnumber, Char.ofNat_toNat]

theorem readReference_decimal (c : Char) (rest : Text) :
    readReference ('#' :: (Text.decimal c.toNat ++ [';']) ++ rest) = some (c, rest) := by
  have hhash : expect ['#'] ('#' :: (Text.decimal c.toNat ++ [';']) ++ rest) =
      some (Text.decimal c.toNat ++ ([';'] ++ rest)) := by
    rw [← List.append_assoc]
    exact expect_append ['#'] _
  rw [readReference, hhash, Option.bind_some, readDecimal_decimal]
  rfl

theorem read_htmlChar (c : Char) : (htmlChar c = [c] ∧ c ≠ '&') ∨
    ∃ used, htmlChar c = '&' :: used ∧ ∀ rest, readReference (used ++ rest) = some (c, rest) := by
  rcases htmlChar_cases c with ⟨rfl, hc⟩ | ⟨rfl, hc⟩ | ⟨rfl, hc⟩ | ⟨rfl, hc⟩ | ⟨hp, hc⟩
  · exact .inr ⟨_, hc, fun rest => rfl⟩
  · exact .inr ⟨_, hc, fun rest => rfl⟩
  · exact .inr ⟨_, hc, fun rest => rfl⟩
  · exact .inr ⟨_, hc, fun rest => rfl⟩
  · exact .inl ⟨hc, hp.1⟩

theorem read_htmlAsciiChar (c : Char) : (htmlAsciiChar c = [c] ∧ c ≠ '&') ∨
    ∃ used, htmlAsciiChar c = '&' :: used ∧
      ∀ rest, readReference (used ++ rest) = some (c, rest) := by
  rcases htmlChar_cases c with ⟨rfl, -⟩ | ⟨rfl, -⟩ | ⟨rfl, -⟩ | ⟨rfl, -⟩ | ⟨hp, -⟩
  · exact .inr ⟨_, rfl, fun rest => rfl⟩
  · exact .inr ⟨_, rfl, fun rest => rfl⟩
  · exact .inr ⟨_, rfl, fun rest => rfl⟩
  · exact .inr ⟨_, rfl, fun rest => rfl⟩
  · rw [htmlAsciiChar_of_plain hp, asciiChar]
    split
    · exact .inl ⟨rfl, hp.1⟩
    · exact .inr ⟨_, rfl, readReference_decimal c⟩

theorem coded_htmlChar (c : Char) :
    (∃ d, htmlChar c = [d] ∧ PlainMarkup d) ∨ htmlChar c ∈ namedReferences := by
  rcases htmlChar_cases c with ⟨-, hc⟩ | ⟨-, hc⟩ | ⟨-, hc⟩ | ⟨-, hc⟩ | ⟨hp, hc⟩
  · exact .inr (hc ▸ by decide)
  · exact .inr (hc ▸ by decide)
  · exact .inr (hc ▸ by decide)
  · exact .inr (hc ▸ by decide)
  · exact .inl ⟨c, hc, hp⟩

theorem coded_htmlAsciiChar (c : Char) :
    (∃ d, htmlAsciiChar c = [d] ∧ PlainMarkup d ∧ d.toNat < 128) ∨
      (htmlAsciiChar c ∈ namedReferences ∨ IsDecimalReference (htmlAsciiChar c)) := by
  rcases htmlChar_cases c with ⟨rfl, -⟩ | ⟨rfl, -⟩ | ⟨rfl, -⟩ | ⟨rfl, -⟩ | ⟨hp, -⟩
  · exact .inr (.inl (by decide))
  · exact .inr (.inl (by decide))
  · exact .inr (.inl (by decide))
  · exact .inr (.inl (by decide))
  · rw [htmlAsciiChar_of_plain hp, asciiChar]
    split
    · rename_i hlt
      exact .inl ⟨c, rfl, hp, hlt⟩
    · exact .inr (.inr (isDecimalReference c))

theorem reference_spec {w : Text} (h : w ∈ namedReferences ∨ IsDecimalReference w) :
    (∃ w', w = '&' :: w' ∧ '&' ∉ w') ∧ ∀ c ∈ w, c ∉ ['<', '>', '"'] ∧ c.toNat < 128 := by
  rcases h with h | ⟨digits, rfl, -, hdigits⟩
  · simp only [namedReferences, List.mem_cons, List.not_mem_nil, or_false] at h
    rcases h with rfl | rfl | rfl | rfl <;> exact ⟨⟨_, rfl, by decide⟩, by simp⟩
  · have hdigit : ∀ c ∈ digits, c ≠ '&' ∧ c ∉ ['<', '>', '"'] ∧ c.toNat < 128 := by
      intro c hc
      have hrange : 48 ≤ c.toNat ∧ c.toNat ≤ 57 := Char.isDigit_iff_toNat.mp (hdigits c hc)
      refine ⟨?_, ?_, by omega⟩
      · rintro rfl
        exact absurd hrange (by decide)
      · simp only [List.mem_cons, List.not_mem_nil, or_false]
        rintro (rfl | rfl | rfl) <;> exact absurd hrange (by decide)
    have hhead : ∀ c ∈ "&#".toList, c ∉ ['<', '>', '"'] ∧ c.toNat < 128 := by simp
    refine ⟨⟨'#' :: (digits ++ [';']), rfl, ?_⟩, ?_⟩
    · intro hm
      rcases List.mem_cons.mp hm with hm | hm
      · cases hm
      · rcases List.mem_append.mp hm with hm | hm
        · exact (hdigit _ hm).1 rfl
        · cases List.mem_singleton.mp hm
    · intro c hc
      rcases List.mem_append.mp hc with hc | hc
      · exact hhead c hc
      · rcases List.mem_append.mp hc with hc | hc
        · exact (hdigit c hc).2
        · cases List.mem_singleton.mp hc
          decide

def scriptEscapes : List Text :=
  ["\\\\".toList, "\\r".toList, "\\n".toList, "\\t".toList, "\\x27".toList, "\\x22".toList]

def readEscape (t : Text) : Option (Char × Text) :=
  ((expect ['\\'] t).map ('\\', ·)) <|>
  ((expect ['r'] t).map ('\r', ·)) <|>
  ((expect ['n'] t).map ('\n', ·)) <|>
  ((expect ['t'] t).map ('\t', ·)) <|>
  ((expect ['x', '2', '7'] t).map ('\'', ·)) <|>
  ((expect ['x', '2', '2'] t).map ('"', ·))

def decodeEscapes : Text → Text := decodeWith '\\' readEscape

def PlainScript (c : Char) : Prop := c ∉ ['\\', '\'', '"', '\r', '\n', '\t']

theorem scriptChar_cases (c : Char) : (PlainScript c ∧ scriptChar c = [c]) ∨
    (scriptChar c ∈ scriptEscapes ∧ ∃ used, scriptChar c = '\\' :: used ∧
      ∀ rest, readEscape (used ++ rest) = some (c, rest)) := by
  by_cases hc : c ∈ ['\\', '\'', '"', '\r', '\n', '\t']
  · simp only [List.mem_cons, List.not_mem_nil, or_false] at hc
    rcases hc with rfl | rfl | rfl | rfl | rfl | rfl <;>
      exact .inr ⟨by decide, _, rfl, fun rest => rfl⟩
  · refine .inl ⟨hc, ?_⟩
    simp only [List.mem_cons, List.not_mem_nil, or_false, not_or] at hc
    obtain ⟨h₁, h₂, h₃, h₄, h₅, h₆⟩ := hc
    rw [scriptChar, if_neg h₄, if_neg h₅, if_neg h₆, if_neg h₂, if_neg h₃, if_neg h₁]

theorem read_scriptChar (c : Char) : (scriptChar c = [c] ∧ c ≠ '\\') ∨
    ∃ used, scriptChar c = '\\' :: used ∧ ∀ rest, readEscape (used ++ rest) = some (c, rest) := by
  rcases scriptChar_cases c with ⟨hp, hc⟩ | ⟨-, hread⟩
  · refine .inl ⟨hc, ?_⟩
    rintro rfl
    exact hp (by decide)
  · exact .inr hread

theorem coded_script (t : Text) : Coded PlainScript (· ∈ scriptEscapes) (script t) := by
  refine coded_flatMap (fun c => ?_) t
  rcases scriptChar_cases c with ⟨hp, hc⟩ | ⟨hcode, -⟩
  · exact .inl ⟨c, hc, hp⟩
  · exact .inr hcode

/--
Escaped markup holds no angle bracket and no double quote, each ampersand in it begins a reference,
and it reads back as the text; the ASCII form holds ASCII only. An escaped script literal is made of
plain characters and whole escapes, so each backslash that a reader meets begins an escape and the
literal does not end within one; it holds no quote and no line break, and it reads back as well.
-/
theorem markup_script_lossless (t : Text) :
    ((∀ c ∈ html t, c ∉ ['<', '>', '"']) ∧
      (∀ a b, html t = a ++ '&' :: b → ∃ w ∈ namedReferences, w <+: '&' :: b) ∧
      decodeReferences (html t) = t) ∧
    ((∀ c ∈ htmlAscii t, c ∉ ['<', '>', '"'] ∧ c.toNat < 128) ∧
      (∀ a b, htmlAscii t = a ++ '&' :: b →
        ∃ w, (w ∈ namedReferences ∨ IsDecimalReference w) ∧ w <+: '&' :: b) ∧
      decodeReferences (htmlAscii t) = t) ∧
    ((∀ c ∈ script t, c ∉ ['\'', '"', '\r', '\n', '\t']) ∧
      Coded (fun c => c ≠ '\\') (· ∈ scriptEscapes) (script t) ∧
      decodeEscapes (script t) = t) := by
  have hplain : ∀ c, PlainMarkup c → c ∉ ['<', '>', '"'] := by
    rintro c ⟨-, hq, hl, hg⟩
    simp [hq, hl, hg]
  have hhtml : Coded PlainMarkup (· ∈ namedReferences) (html t) := coded_flatMap coded_htmlChar t
  have hascii : Coded (fun c => PlainMarkup c ∧ c.toNat < 128)
      (fun w => w ∈ namedReferences ∨ IsDecimalReference w) (htmlAscii t) := by
    rw [htmlAscii_eq_flatMap]
    exact coded_flatMap coded_htmlAsciiChar t
  refine ⟨⟨?_, ?_, decodeWith_flatMap read_htmlChar t⟩, ⟨?_, ?_, ?_⟩, ?_, ?_,
    decodeWith_flatMap read_scriptChar t⟩
  · intro c hc
    rcases hhtml.of_mem hc with hp | ⟨w, hw, hcw⟩
    · exact hplain c hp
    · exact ((reference_spec (.inl hw)).2 c hcw).1
  · intro a b hab
    exact hhtml.begins (fun hp => hp.1 rfl) (fun w hw => (reference_spec (.inl hw)).1) hab
  · intro c hc
    rcases hascii.of_mem hc with ⟨hp, hlt⟩ | ⟨w, hw, hcw⟩
    · exact ⟨hplain c hp, hlt⟩
    · exact (reference_spec hw).2 c hcw
  · intro a b hab
    exact hascii.begins (fun hp => hp.1.1 rfl) (fun w hw => (reference_spec hw).1) hab
  · rw [htmlAscii_eq_flatMap]
    exact decodeWith_flatMap read_htmlAsciiChar t
  · have hcode : ∀ w ∈ scriptEscapes, ∀ c ∈ w, c ∉ ['\'', '"', '\r', '\n', '\t'] := by
      simp [scriptEscapes]
    intro c hc
    rcases (coded_script t).of_mem hc with hp | ⟨w, hw, hcw⟩
    · exact fun hm => hp (List.mem_cons_of_mem _ hm)
    · exact hcode w hw c hcw
  · refine (coded_script t).mono ?_
    rintro c hp rfl
    exact hp (by decide)

end BlockTemplate.Escape
