/-!
# Shortest decimals of binary numbers

A finite binary number stands for an interval of reals, all those that round to it. Its shortest
decimal is the one with the fewest digits in that interval, of two the nearer one, and of two
equally near the larger one. All arithmetic is exact, on natural numbers.
-/

namespace BlockTemplate.Decimal

/--
A positive number `mantissa * 2 ^ exponent` with its rounding interval: half a unit above it, and
below it half a unit or, where the next smaller number is half as far away (`narrow`), a quarter.
-/
structure Binary where
  mantissa : Nat
  exponent : Int
  narrow : Bool
  deriving Repr, DecidableEq

structure Scaled where
  digits : Nat
  scale : Int
  deriving Repr, DecidableEq

namespace Binary

def den (b : Binary) : Nat := Nat.pow 2 (2 - b.exponent).toNat

def quarters (b : Binary) (k : Nat) : Nat := k * Nat.pow 2 (b.exponent - 2).toNat

def num (b : Binary) : Nat := b.quarters (4 * b.mantissa)

def lowNum (b : Binary) : Nat := b.quarters (4 * b.mantissa - if b.narrow then 1 else 2)

def highNum (b : Binary) : Nat := b.quarters (4 * b.mantissa + 2)

def scaleUp (b : Binary) (scale : Int) (c : Nat) : Nat := c * b.den * Nat.pow 10 scale.toNat

def scaleDown (scale : Int) (n : Nat) : Nat := n * Nat.pow 10 (-scale).toNat

/-- Whether the decimal rounds to the number; the ends of the interval do for an even mantissa. -/
def admits (b : Binary) (d : Scaled) : Bool :=
  let x := b.scaleUp d.scale d.digits
  let low := scaleDown d.scale b.lowNum
  let high := scaleDown d.scale b.highNum
  if b.mantissa % 2 = 0 then low ≤ x && x ≤ high else low < x && x < high

def magnitude (b : Binary) : Int :=
  let shift := b.den.log2 + 1
  ((Nat.toDigits 10 (b.num * Nat.pow 10 shift / b.den)).length : Int) - shift

def below (b : Binary) (scale : Int) : Scaled :=
  ⟨scaleDown scale b.num / (b.den * Nat.pow 10 scale.toNat), scale⟩

def Scaled.succ (d : Scaled) : Scaled := ⟨d.digits + 1, d.scale⟩

def nearsAbove (b : Binary) (d : Scaled) : Bool :=
  let x := scaleDown d.scale b.num
  b.scaleUp d.scale (d.digits + 1) - x ≤ x - b.scaleUp d.scale d.digits

def onGrid? (b : Binary) (scale : Int) : Option Scaled :=
  let low := b.below scale
  let high := Scaled.succ low
  match b.admits low, b.admits high with
  | true, true => some (if b.nearsAbove low then high else low)
  | true, false => some low
  | false, true => some high
  | false, false => none

def search (b : Binary) (scale : Int) : Nat → Scaled
  | 0 => b.below scale
  | count + 1 => (b.onGrid? scale).getD (b.search (scale - 1) count)

/-- The shortest decimal that rounds to the number; seventeen digits always suffice. -/
def shortest (b : Binary) : Scaled := b.search (b.magnitude - 1) 17

end Binary

end BlockTemplate.Decimal
