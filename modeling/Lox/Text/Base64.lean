import Lox.Text.Basic

/-! Bytes that are written with the 64 letters, digits and marks of the standard alphabet. -/
namespace Lox.Text

def sextet? (b : UInt8) : Option Nat :=
  let c := Char.ofUInt8 b
  if c.isUpper then some (c.toNat - 'A'.toNat)
  else if c.isLower then some (c.toNat - 'a'.toNat + 26)
  else if c.isDigit then some (c.toNat - '0'.toNat + 52)
  else if c = '+' then some 62
  else if c = '/' then some 63
  else none

def padding : UInt8 := '='.toUInt8

/-- The bytes that groups of four characters stand for. Only the last group may be padded. Bits beyond the last byte
do not count. -/
def ofGroups? : Text → Option Text
  | [] => some []
  | a :: b :: c :: d :: rest => do
    let high := 64 * (← sextet? a) + (← sextet? b)
    if c = padding && d = padding && rest.isEmpty then
      return [(high / 16).toUInt8]
    let middle := 64 * high + (← sextet? c)
    if d = padding && rest.isEmpty then
      return [(middle / 1024).toUInt8, (middle / 4).toUInt8]
    let group := 64 * middle + (← sextet? d)
    return (group / 65536).toUInt8 :: (group / 256).toUInt8 :: group.toUInt8 :: (← ofGroups? rest)
  | _ => none

def ofBase64? (t : Text) : Option Text :=
  ofGroups? (t.filter fun b => b ≠ '\r'.toUInt8 && b ≠ '\n'.toUInt8)

end Lox.Text
