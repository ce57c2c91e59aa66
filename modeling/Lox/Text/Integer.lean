import Lox.Text.Basic

/-! Integers as they are written in options and settings: decimal, or hexadecimal, octal or binary with the marks
`0x`, `0o` and `0b`, or octal with a leading zero. Underscores may separate digits. -/
namespace Lox.Text

inductive IntegerError where
  | malformed
  | outOfRange
deriving DecidableEq

def digitIn? (base : Nat) (b : UInt8) : Option Nat :=
  let c := (Char.ofUInt8 b).toLower
  let value? := if c.isDigit then some (c.toNat - 48) else if c.isAlpha then some (c.toNat - 87) else none
  value?.filter (· < base)

def minInteger : Int := -0x8000000000000000

def maxInteger : Int := 0x7FFFFFFFFFFFFFFF

def maxNatural : Nat := 0xFFFFFFFFFFFFFFFF

def underscore : UInt8 := '_'.toUInt8

/-- The number that digits spell after `n`, underscores left out. The first byte that cannot go on decides what is
wrong. Numbers end at 64 bits. -/
def naturalFrom (base : Nat) : Nat → Text → Except IntegerError Nat
  | n, [] => .ok n
  | n, b :: bs =>
    if b = underscore then naturalFrom base n bs
    else match digitIn? base b with
      | none => .error .malformed
      | some d =>
        if base * n + d ≤ maxNatural then naturalFrom base (base * n + d) bs else .error .outOfRange

/-- Whether each underscore stands between two digits; `after` says whether a digit stands before the text. -/
def separates : (after : Bool) → Text → Bool
  | _, [] => true
  | after, b :: bs =>
    if b = underscore then after && !bs.isEmpty && separates false bs else separates true bs

def baseAndDigits (t : Text) : Nat × Text :=
  match t.map fun b => (Char.ofUInt8 b).toLower with
  | '0' :: 'b' :: _ :: _ => (2, t.drop 2)
  | '0' :: 'o' :: _ :: _ => (8, t.drop 2)
  | '0' :: 'x' :: _ :: _ => (16, t.drop 2)
  | '0' :: _ => (8, t.drop 1)
  | _ => (10, t)

def natural (t : Text) : Except IntegerError Nat :=
  if t.isEmpty then .error .malformed
  else
    let (base, digits) := baseAndDigits t
    match naturalFrom base 0 digits with
    | .ok n => if separates (digits.length < t.length) digits then .ok n else .error .malformed
    | .error e => .error e

def integer (t : Text) : Except IntegerError Int :=
  let (sign, size) : Int × Text := match t with
    | [] => (1, [])
    | b :: bs =>
      if b = '-'.toUInt8 then (-1, bs) else if b = '+'.toUInt8 then (1, bs) else (1, t)
  match natural size with
  | .error e => .error e
  | .ok n =>
    let value := sign * n
    if minInteger ≤ value ∧ value ≤ maxInteger then .ok value else .error .outOfRange

end Lox.Text
