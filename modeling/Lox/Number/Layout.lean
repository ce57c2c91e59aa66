import Lox.Number.Shortest

/-! How numbers are written. Values are written positionally whatever their size. In the listing of a token
a large or small number has an exponent instead. -/
namespace Lox

namespace Decimal

def zeros (n : Nat) : Text := List.replicate n '0'.toUInt8

def positional (d : Decimal) : Text :=
  let ds := Text.ofNat d.digits
  let places := (-d.exponent).toNat
  if 0 ≤ d.exponent then ds ++ zeros d.exponent.toNat
  else if places < ds.length then
    ds.take (ds.length - places) ++ "." ++ ds.drop (ds.length - places)
  else "0." ++ zeros (places - ds.length) ++ ds

def leadingExponent (d : Decimal) : Int := d.exponent + (Text.ofNat d.digits).length - 1

/-- One digit, the other digits as a fraction, and an exponent of at least two digits. -/
def exponential (d : Decimal) : Text :=
  let e := d.leadingExponent
  let size := Text.ofNat e.natAbs
  let power := (if e < 0 then "-" else "+" : Text) ++ zeros (2 - size.length) ++ size
  match Text.ofNat d.digits with
  | first :: [] => first :: "e" ++ power
  | first :: rest => first :: "." ++ rest ++ "e" ++ power
  | [] => []

/-- With an exponent if the first digit stands below the fourth decimal place or above the sixth whole one. -/
def general (d : Decimal) : Text :=
  if d.leadingExponent < -4 ∨ 6 ≤ d.leadingExponent then d.exponential else d.positional

end Decimal

namespace Number

def write (layout : Decimal → Text) (x : Number) : Text :=
  if x.isNaN then "NaN"
  else
    let size : Text :=
      if x.isInfinite then "Infinity" else if x.magnitude = 0 then "0" else layout x.shortest
    if x.isNegative then "-" ++ size else size

def toText : Number → Text := write Decimal.positional

def toGeneralText : Number → Text := write Decimal.general

end Number
end Lox
