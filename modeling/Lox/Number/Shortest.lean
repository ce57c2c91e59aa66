import Lox.Number.Decimal

/-! The shortest decimal that reads back as a given number. Of the decimals with the fewest digits that do, it
is the one nearest to the number. -/
namespace Lox.Number

/-- The least `k` with `num / den < 10 ^ k`, for a positive ratio. -/
def decimalPoint (num den : Nat) : Int :=
  let estimate := ((num.log2 : Int) - den.log2) * 30103 / 100000
  let below (k : Int) : Bool := num * tenPow (-k).toNat < den * tenPow k.toNat
  if below estimate then estimate else if below (estimate + 1) then estimate + 1 else estimate + 2

def readsBack (x : Number) (d : Decimal) : Bool := d.toNumber? == some (ofMagnitude x.magnitude)

/-- A decimal at the exponent `e` that reads back as `x`: one of the two next to it, the nearer if possible. -/
def decimalAt? (x : Number) (e : Int) : Option Decimal :=
  let num := x.numerator * tenPow (-e).toNat
  let den := x.denominator * tenPow e.toNat
  let near := divNearest num den
  let far := if near = num / den then near + 1 else near - 1
  [Decimal.mk near e, Decimal.mk far e].find? x.readsBack

def exactDecimal (x : Number) : Decimal :=
  ⟨x.numerator * Nat.pow 5 (1074 - x.scale), -((1074 - x.scale : Nat) : Int)⟩

def shortest (x : Number) : Decimal :=
  let k := decimalPoint x.numerator x.denominator
  let found := (List.range 17).findSome? fun (n : Nat) => x.decimalAt? (k - (n + 1 : Nat))
  (found.getD x.exactDecimal).trim 17

end Lox.Number
