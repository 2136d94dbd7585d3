import BlockTemplate.Decimal.Shortest
import BlockTemplate.Text.Basic

/-!
# Texts of floating-point numbers

A number is given by the bits of its interchange format. Its text is the shortest decimal, always
in positional notation, without a point where it is whole.
-/

namespace BlockTemplate.Decimal

structure FloatFormat where
  fractionBits : Nat
  exponentBits : Nat
  deriving Repr, DecidableEq

def FloatFormat.single : FloatFormat := ⟨23, 8⟩

def FloatFormat.double : FloatFormat := ⟨52, 11⟩

namespace FloatFormat

variable (f : FloatFormat) (bits : Nat)

def fraction : Nat := bits % Nat.pow 2 f.fractionBits

def biased : Nat := bits / Nat.pow 2 f.fractionBits % Nat.pow 2 f.exponentBits

def negative : Bool := bits / Nat.pow 2 (f.fractionBits + f.exponentBits) % 2 == 1

def bias : Nat := Nat.pow 2 (f.exponentBits - 1) - 1

def magnitude : Binary where
  mantissa := f.fraction bits + if f.biased bits = 0 then 0 else Nat.pow 2 f.fractionBits
  exponent := (max (f.biased bits) 1 : Nat) - ((f.bias + f.fractionBits : Nat) : Int)
  narrow := f.fraction bits == 0 && 1 < f.biased bits

end FloatFormat

def stripZeros : Nat → Nat → Nat × Nat
  | 0, n => (n, 0)
  | fuel + 1, n =>
    if n ≠ 0 ∧ n % 10 = 0 then
      let (m, k) := stripZeros fuel (n / 10)
      (m, k + 1)
    else (n, 0)

def positional (d : Scaled) : Text :=
  let (n, zeros) := stripZeros (Nat.toDigits 10 d.digits).length d.digits
  let digits := Nat.toDigits 10 n
  let scale := d.scale + zeros
  if 0 ≤ scale then digits ++ List.replicate scale.toNat '0'
  else
    let places := (-scale).toNat
    let padded := List.replicate (places + 1 - digits.length) '0' ++ digits
    padded.take (padded.length - places) ++ '.' :: padded.drop (padded.length - places)

def floatText (f : FloatFormat) (bits : Nat) : Text :=
  let sign := if f.negative bits then ['-'] else []
  if f.biased bits = Nat.pow 2 f.exponentBits - 1 then
    if f.fraction bits = 0 then sign ++ "inf".toList else "NaN".toList
  else if f.biased bits = 0 ∧ f.fraction bits = 0 then sign ++ ['0']
  else sign ++ positional (f.magnitude bits).shortest

end BlockTemplate.Decimal
