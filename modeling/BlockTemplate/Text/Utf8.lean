import BlockTemplate.Text.Basic

/-!
# UTF-8

The bytes of texts, and the texts of bytes. Bytes that are no UTF-8 are read as well, with a gap for
each byte that belongs to no character: whoever reads them decides which gaps matter. Bytes read
without gaps exactly if they are the encoding of a text (`decode_eq_map_some_iff`).
-/

namespace BlockTemplate.Text

def utf8 (t : Text) : List UInt8 := t.flatMap String.utf8EncodeChar

@[simp] theorem utf8_nil : utf8 [] = [] := rfl

@[simp] theorem utf8_cons (c : Char) (t : Text) :
    utf8 (c :: t) = String.utf8EncodeChar c ++ utf8 t := rfl

@[simp] theorem utf8_append (s t : Text) : utf8 (s ++ t) = utf8 s ++ utf8 t := List.flatMap_append

@[simp] theorem length_utf8 (t : Text) : (utf8 t).length = size t := by
  induction t with
  | nil => rfl
  | cons c t ih => simp [ih]

/-- Bytes read as characters. A gap, `none`, is a byte that belongs to no character. -/
abbrev Decoded := List (Option Char)

def scalarAt (bytes : List UInt8) : Nat :=
  let byte := fun i => (bytes.getD i 0).toNat
  let low := fun i => byte i % 64
  if byte 0 < 0x80 then byte 0
  else if byte 0 < 0xE0 then byte 0 % 32 * 64 + low 1
  else if byte 0 < 0xF0 then (byte 0 % 16 * 64 + low 1) * 64 + low 2
  else ((byte 0 % 8 * 64 + low 1) * 64 + low 2) * 64 + low 3

def charAt? (bytes : List UInt8) : Option Char :=
  let c := Char.ofNat (scalarAt bytes)
  if (String.utf8EncodeChar c).isPrefixOf bytes then some c else none

/-- Reads bytes of which the first `passed` belong to a character already read. -/
def decodeFrom : (passed : Nat) → List UInt8 → Decoded
  | _, [] => []
  | passed + 1, _ :: bytes => decodeFrom passed bytes
  | 0, b :: bytes =>
    match charAt? (b :: bytes) with
    | some c => some c :: decodeFrom (c.utf8Size - 1) bytes
    | none => none :: decodeFrom 0 bytes

def decode (bytes : List UInt8) : Decoded := decodeFrom 0 bytes

def ofDecoded? : Decoded → Option Text
  | [] => some []
  | none :: _ => none
  | some c :: t => (ofDecoded? t).map (c :: ·)

def ofUtf8? (bytes : List UInt8) : Option Text := ofDecoded? (decode bytes)

theorem scalarAt_encode (c : Char) (rest : List UInt8) :
    scalarAt (String.utf8EncodeChar c ++ rest) = c.toNat := by
  have hv : c.val.toNat < 0x110000 := by
    have := c.valid
    simp only [UInt32.isValidChar, Nat.isValidChar] at this
    omega
  rw [show c.toNat = c.val.toNat from rfl]
  simp only [String.utf8EncodeChar]
  generalize c.val.toNat = v at hv
  repeat' split
  all_goals
    simp only [scalarAt, List.cons_append, List.nil_append, List.getD_cons_zero,
      List.getD_cons_succ, UInt8.toNat_ofNat']
    repeat' split
    all_goals omega

theorem charAt?_encode (c : Char) (rest : List UInt8) :
    charAt? (String.utf8EncodeChar c ++ rest) = some c := by
  simp [charAt?, scalarAt_encode, Char.ofNat_toNat]

theorem encode_prefix_of_charAt? {bytes : List UInt8} {c : Char} (h : charAt? bytes = some c) :
    String.utf8EncodeChar c <+: bytes := by
  simp only [charAt?, Option.ite_none_right_eq_some, Option.some.injEq] at h
  obtain ⟨hp, rfl⟩ := h
  exact List.isPrefixOf_iff_prefix.mp hp

theorem decodeFrom_eq_drop (passed : Nat) (bytes : List UInt8) :
    decodeFrom passed bytes = decode (bytes.drop passed) := by
  induction passed generalizing bytes with
  | zero => rfl
  | succ passed ih =>
    cases bytes with
    | nil => simp [decode, decodeFrom]
    | cons b bytes => simp [decodeFrom, ih]

@[simp] theorem decode_nil : decode [] = [] := by simp [decode, decodeFrom]

@[simp] theorem decode_encode_append (c : Char) (rest : List UInt8) :
    decode (String.utf8EncodeChar c ++ rest) = some c :: decode rest := by
  have hlen := String.length_utf8EncodeChar c
  have hc := charAt?_encode c rest
  cases he : String.utf8EncodeChar c with
  | nil => have := c.utf8Size_pos; simp [he] at hlen; omega
  | cons b bs =>
    rw [he] at hc hlen
    have hb : c.utf8Size - 1 = bs.length := by simp at hlen; omega
    rw [List.cons_append] at hc ⊢
    rw [decode, decodeFrom, hc]
    simp only [hb]
    rw [decodeFrom_eq_drop, List.drop_left]

@[simp] theorem decode_utf8_append (t : Text) (rest : List UInt8) :
    decode (utf8 t ++ rest) = t.map some ++ decode rest := by
  induction t with
  | nil => rfl
  | cons c t ih => simp [ih]

@[simp] theorem decode_utf8 (t : Text) : decode (utf8 t) = t.map some := by
  simpa using decode_utf8_append t []

theorem eq_utf8_of_decode {bytes : List UInt8} {t : Text} (h : decode bytes = t.map some) :
    bytes = utf8 t := by
  induction t generalizing bytes with
  | nil =>
    cases bytes with
    | nil => rfl
    | cons b bytes => simp only [decode, decodeFrom] at h; split at h <;> simp at h
  | cons c t ih =>
    cases bytes with
    | nil => simp at h
    | cons b bytes =>
      cases hc : charAt? (b :: bytes) with
      | none => simp [decode, decodeFrom, hc] at h
      | some d =>
        obtain ⟨rest, hrest⟩ := encode_prefix_of_charAt? hc
        rw [← hrest, decode_encode_append, List.map_cons, List.cons.injEq] at h
        obtain ⟨hd, ht⟩ := h
        cases hd
        rw [← hrest, ih ht, utf8_cons]

theorem decode_eq_map_some_iff {bytes : List UInt8} {t : Text} :
    decode bytes = t.map some ↔ bytes = utf8 t :=
  ⟨eq_utf8_of_decode, fun h => h ▸ decode_utf8 t⟩

theorem ofDecoded?_eq_some_iff {d : Decoded} {t : Text} :
    ofDecoded? d = some t ↔ d = t.map some := by
  induction d generalizing t with
  | nil => cases t <;> simp [ofDecoded?]
  | cons c d ih =>
    cases c with
    | none => cases t <;> simp [ofDecoded?]
    | some c =>
      cases t with
      | nil => simp [ofDecoded?]
      | cons e t =>
        simp only [ofDecoded?, Option.map_eq_some_iff, ih, List.cons.injEq, List.map_cons,
          Option.some.injEq]
        constructor
        · rintro ⟨u, rfl, rfl, rfl⟩; exact ⟨rfl, rfl⟩
        · rintro ⟨rfl, h⟩; exact ⟨t, h, rfl, rfl⟩

/-- A text is read from its encoding and from no other bytes. -/
theorem ofUtf8?_eq_some_iff {bytes : List UInt8} {t : Text} :
    ofUtf8? bytes = some t ↔ bytes = utf8 t :=
  ofDecoded?_eq_some_iff.trans decode_eq_map_some_iff

end BlockTemplate.Text
