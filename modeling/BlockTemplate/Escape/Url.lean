import BlockTemplate.Text.Utf8

/-!
# URL escapes

A text is written as its UTF-8 bytes. ASCII letters and digits and the safe characters of the style
stand for themselves, every other byte is a percent sign and two hexadecimal digits, and in a query
a space may be a plus sign.
-/

namespace BlockTemplate.Escape

structure UrlStyle where
  safe : List Char
  plusForSpace : Bool

def UrlStyle.query : UrlStyle := ⟨['-', '_', '.'], true⟩

def UrlStyle.path : UrlStyle := ⟨['-', '_', '.', '~'], false⟩

def hexDigit (n : Nat) : Char := Char.ofNat (if n < 10 then 48 + n else 55 + n)

def percentByte (b : UInt8) : Text := ['%', hexDigit (b.toNat / 16), hexDigit (b.toNat % 16)]

def UrlStyle.keeps (s : UrlStyle) (b : UInt8) : Bool :=
  let c := Char.ofNat b.toNat
  b.toNat < 128 && (c.isAlphanum || s.safe.contains c)

def urlByte (s : UrlStyle) (b : UInt8) : Text :=
  if s.keeps b then [Char.ofNat b.toNat]
  else if s.plusForSpace && b.toNat == 32 then ['+']
  else percentByte b

def url (s : UrlStyle) (t : Text) : Text := (Text.utf8 t).flatMap (urlByte s)

def urlQuery (t : Text) : Text := url .query t

def urlPath (t : Text) : Text := url .path t

end BlockTemplate.Escape
