import Lox.Text.Basic
import Lox.Number.Basic

/-! Decimal numbers and the number nearest to one. A decimal that lies halfway between two numbers belongs to
the one whose significand is even. -/
namespace Lox

def divNearest (num den : Nat) : Nat :=
  -- a tie is rounded to the even one
  let q := num / den
  let r := num % den
  if 2 * r < den then q else if den < 2 * r then q + 1 else q + q % 2

namespace Number

/-- The scale at which `num / den` has a significand of 53 bits, or 0 if that would be below the smallest. -/
def scaleOf (num den : Nat) : Nat :=
  let a := num.log2
  let b := den.log2
  a + (if den * twoPow a ≤ num * twoPow b then 1022 else 1021) - b

/-- The number nearest to `num / den`, or `none` if that is beyond all finite numbers. -/
def ofRatio? (num den : Nat) : Option Number :=
  if num = 0 then some zero
  else
    let p := scaleOf num den
    let m := p * twoPow 52 + divNearest (num * twoPow (1074 - p)) (den * twoPow (p - 1074))
    if m < infinity then some (ofMagnitude m) else none

end Number

/-- The number `digits * 10 ^ exponent`. -/
structure Decimal where
  digits : Nat
  exponent : Int
deriving DecidableEq

namespace Decimal

def ofDigits (whole fraction : Text) : Decimal where
  digits := Text.digitsValue (whole ++ fraction)
  exponent := -(fraction.length : Int)

def toNumber? (d : Decimal) : Option Number :=
  Number.ofRatio? (d.digits * tenPow d.exponent.toNat) (tenPow (-d.exponent).toNat)

/-- The same number without trailing zeros among its digits; `fuel` bounds how many are removed. -/
def trim : (fuel : Nat) → Decimal → Decimal
  | 0, d => d
  | fuel + 1, d =>
    if d.digits ≠ 0 ∧ d.digits % 10 = 0 then trim fuel ⟨d.digits / 10, d.exponent + 1⟩ else d

end Decimal
end Lox
