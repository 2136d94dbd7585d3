import BlockTemplate.Escape.Url
import BlockTemplate.Proofs.Escape.Coded
import Mathlib.Logic.Function.Basic

/-!
# Reading URL escapes

A decoder that reads from left to right takes `%` and two hexadecimal digits for a byte and every
other character for its own bytes, so it cannot be led astray if each sign that means more than
itself is escaped. Escaped texts are such texts, in path style and in query style, and decode to the
bytes of the text.
-/

namespace BlockTemplate.Escape

def hexValue (c : Char) : Option Nat :=
  if '0' ≤ c ∧ c ≤ '9' then some (c.toNat - 48)
  else if 'A' ≤ c ∧ c ≤ 'F' then some (c.toNat - 55)
  else if 'a' ≤ c ∧ c ≤ 'f' then some (c.toNat - 87)
  else none

/-- The bytes of a text with escapes; there are none if a percent sign begins no escape. -/
def percentDecode : Text → Option (List UInt8)
  | [] => some []
  | '%' :: a :: b :: t => do
    let high ← hexValue a
    let low ← hexValue b
    let bytes ← percentDecode t
    return UInt8.ofNat (high * 16 + low) :: bytes
  | '%' :: _ => none
  | c :: t => (percentDecode t).map (String.utf8EncodeChar c ++ ·)

def plusToSpace (c : Char) : Char := if c = '+' then ' ' else c

def formDecode (t : Text) : Option (List UInt8) := percentDecode (t.map plusToSpace)

def isUpperHexDigit (c : Char) : Bool := "0123456789ABCDEF".toList.contains c

def IsTriple (w : Text) : Prop :=
  ∃ a b, w = ['%', a, b] ∧ isUpperHexDigit a = true ∧ isUpperHexDigit b = true

theorem hexValue_hexDigit : ∀ n < 16, hexValue (hexDigit n) = some n := by decide

theorem isUpperHexDigit_hexDigit : ∀ n < 16, isUpperHexDigit (hexDigit n) = true := by decide

theorem plusToSpace_hexDigit : ∀ n < 16, plusToSpace (hexDigit n) = hexDigit n := by decide

theorem percentDecode_of_ne {c : Char} (h : c ≠ '%') (t : Text) :
    percentDecode (c :: t) = (percentDecode t).map (String.utf8EncodeChar c ++ ·) := by
  rw [percentDecode.eq_def]
  split <;> simp_all

theorem percentDecode_percentByte (b : UInt8) (t : Text) :
    percentDecode (percentByte b ++ t) = (percentDecode t).map (b :: ·) := by
  have hb : b.toNat < 256 := b.toNat_lt
  have hsum : b.toNat / 16 * 16 + b.toNat % 16 = b.toNat := by omega
  simp only [percentByte, List.cons_append, List.nil_append, percentDecode,
    hexValue_hexDigit (b.toNat / 16) (by omega), hexValue_hexDigit (b.toNat % 16) (by omega),
    Option.bind_eq_bind, Option.bind_some, Option.pure_def, hsum, UInt8.ofNat_toNat]
  cases percentDecode t <;> rfl

theorem encode_ofNat {b : UInt8} (h : b.toNat < 128) :
    String.utf8EncodeChar (Char.ofNat b.toNat) = [b] := by
  have hchar : (Char.ofNat b.toNat).val.toNat = b.toNat := by
    have hvalid : b.toNat.isValidChar := .inl (by omega)
    rw [Char.ofNat, dif_pos hvalid]
    rfl
  simp only [String.utf8EncodeChar, hchar]
  rw [if_pos (by omega)]
  simp

namespace UrlStyle

/-- The safe characters are no sign that a decoder takes for more than itself. -/
structure Unambiguous (s : UrlStyle) : Prop where
  percent : '%' ∉ s.safe
  plus : s.plusForSpace = true → '+' ∉ s.safe

def plain (s : UrlStyle) (c : Char) : Bool :=
  c.isAlphanum || s.safe.contains c || (s.plusForSpace && c == '+')

def decode (s : UrlStyle) (t : Text) : Option (List UInt8) :=
  if s.plusForSpace then formDecode t else percentDecode t

variable {s : UrlStyle}

theorem unambiguous_path : path.Unambiguous := ⟨by decide, by decide⟩

theorem unambiguous_query : query.Unambiguous := ⟨by decide, by decide⟩

theorem decode_append_of_fixed {w : Text} (hw : w.map plusToSpace = w) {f : List UInt8 → List UInt8}
    (hf : ∀ t, percentDecode (w ++ t) = (percentDecode t).map f) (t : Text) :
    s.decode (w ++ t) = (s.decode t).map f := by
  rw [decode, decode, formDecode, formDecode, List.map_append, hw]
  split <;> exact hf _

theorem kept_spec (h : s.Unambiguous) {b : UInt8} (hb : s.keeps b = true) :
    b.toNat < 128 ∧ Char.ofNat b.toNat ≠ '%' ∧
      (s.plusForSpace = true → Char.ofNat b.toNat ≠ '+') ∧
      ((Char.ofNat b.toNat).isAlphanum = true ∨ Char.ofNat b.toNat ∈ s.safe) := by
  simp only [keeps, Bool.and_eq_true, decide_eq_true_eq, Bool.or_eq_true,
    List.contains_iff_mem] at hb
  refine ⟨hb.1, ?_, ?_, hb.2⟩
  · intro he
    rw [he] at hb
    exact hb.2.elim (by decide) h.percent
  · intro hp he
    rw [he] at hb
    exact hb.2.elim (by decide) (h.plus hp)

theorem decode_urlByte (h : s.Unambiguous) (b : UInt8) (t : Text) :
    s.decode (urlByte s b ++ t) = (s.decode t).map (b :: ·) := by
  rw [urlByte]
  split
  · rename_i hb
    obtain ⟨hlt, hpercent, hplus, -⟩ := kept_spec h hb
    -- A byte that is kept is the whole encoding of its character, which no decoder reads otherwise.
    have hread : ∀ t, percentDecode (Char.ofNat b.toNat :: t) =
        (percentDecode t).map (b :: ·) := by
      intro t
      rw [percentDecode_of_ne hpercent, encode_ofNat hlt]
      rfl
    cases hp : s.plusForSpace with
    | false =>
      simp only [decode, hp]
      exact hread t
    | true =>
      refine decode_append_of_fixed ?_ hread t
      rw [List.map_singleton, plusToSpace, if_neg (hplus hp)]
  · split
    · rename_i hspace
      simp only [Bool.and_eq_true, beq_iff_eq] at hspace
      have hb : b = 32 := UInt8.toNat_inj.mp hspace.2
      simp only [decode, formDecode, hspace.1, if_true, List.singleton_append, List.map_cons]
      rw [show plusToSpace '+' = ' ' from rfl, percentDecode_of_ne (by decide), hb]
      rfl
    · refine decode_append_of_fixed ?_ (percentDecode_percentByte b) t
      have hb : b.toNat < 256 := b.toNat_lt
      simp only [percentByte, List.map_cons, List.map_nil,
        plusToSpace_hexDigit (b.toNat / 16) (by omega),
        plusToSpace_hexDigit (b.toNat % 16) (by omega)]
      rfl

theorem coded_urlByte (h : s.Unambiguous) (b : UInt8) :
    (∃ c, urlByte s b = [c] ∧ s.plain c = true) ∨ IsTriple (urlByte s b) := by
  rw [urlByte]
  split
  · rename_i hb
    obtain ⟨-, -, -, hchar⟩ := kept_spec h hb
    refine .inl ⟨_, rfl, ?_⟩
    simp only [plain, Bool.or_eq_true, List.contains_iff_mem]
    exact .inl hchar
  · split
    · rename_i hspace
      rw [Bool.and_eq_true] at hspace
      exact .inl ⟨_, rfl, by simp [plain, hspace.1]⟩
    · have hb : b.toNat < 256 := b.toNat_lt
      exact .inr ⟨_, _, rfl, isUpperHexDigit_hexDigit _ (by omega),
        isUpperHexDigit_hexDigit _ (by omega)⟩

theorem decode_url (h : s.Unambiguous) (t : Text) : s.decode (url s t) = some (Text.utf8 t) := by
  rw [url]
  induction Text.utf8 t with
  | nil =>
    rw [decode, formDecode]
    split <;> rfl
  | cons b bytes ih => rw [List.flatMap_cons, decode_urlByte h, ih, Option.map_some]

theorem coded_url (h : s.Unambiguous) (t : Text) : Coded (s.plain · = true) IsTriple (url s t) :=
  coded_flatMap (coded_urlByte h) (Text.utf8 t)

theorem url_injective (h : s.Unambiguous) : Function.Injective (url s) := by
  intro t u htu
  have hbytes := decode_url h t
  rw [htu, decode_url h u, Option.some.injEq] at hbytes
  have hread := Text.ofUtf8?_eq_some_iff.mpr hbytes.symm
  rw [Text.ofUtf8?_eq_some_iff.mpr rfl, Option.some.injEq] at hread
  exact hread

theorem url_append (s : UrlStyle) (t u : Text) : url s (t ++ u) = url s t ++ url s u := by
  rw [url, Text.utf8_append, List.flatMap_append]
  rfl

end UrlStyle

/--
What is written for a URL holds ASCII letters and digits, the signs of its style and escapes only.
Decoding it gives the bytes of the text, so no two texts are written alike, and texts are written one
after another as their concatenation is.
-/
theorem url_lossless :
    (∀ t, Coded (fun c => c.isAlphanum = true ∨ c ∈ "-_.~".toList) IsTriple (urlPath t) ∧
      percentDecode (urlPath t) = some (Text.utf8 t)) ∧
    (∀ t, Coded (fun c => c.isAlphanum = true ∨ c ∈ "-_.+".toList) IsTriple (urlQuery t) ∧
      formDecode (urlQuery t) = some (Text.utf8 t)) ∧
    Function.Injective urlPath ∧ Function.Injective urlQuery ∧
    ∀ t u, urlPath (t ++ u) = urlPath t ++ urlPath u ∧
      urlQuery (t ++ u) = urlQuery t ++ urlQuery u := by
  refine ⟨fun t => ⟨?_, UrlStyle.decode_url UrlStyle.unambiguous_path t⟩,
    fun t => ⟨?_, UrlStyle.decode_url UrlStyle.unambiguous_query t⟩,
    UrlStyle.url_injective UrlStyle.unambiguous_path,
    UrlStyle.url_injective UrlStyle.unambiguous_query,
    fun t u => ⟨UrlStyle.url_append _ t u, UrlStyle.url_append _ t u⟩⟩
  · refine (UrlStyle.coded_url UrlStyle.unambiguous_path t).mono ?_
    intro c hc
    simpa [UrlStyle.plain, UrlStyle.path] using hc
  · refine (UrlStyle.coded_url UrlStyle.unambiguous_query t).mono ?_
    intro c hc
    simpa [UrlStyle.plain, UrlStyle.query, or_assoc] using hc

example : urlQuery "a b+é%".toList = "a+b%2B%C3%A9%25".toList := by decide

end BlockTemplate.Escape
