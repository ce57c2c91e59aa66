import Lox.Text.Basic

/-! Code points in a text. A byte that starts no valid UTF-8 sequence stands for itself; surrogates and
overlong forms are not valid. -/
namespace Lox.Text

def continuation? (lo hi b : UInt8) : Option Nat :=
  if lo ≤ b ∧ b ≤ hi then some (b.toNat % 64) else none

def codePoint? : Text → Option (Nat × Nat)
  | [] => none
  | a :: rest =>
    if a < 0x80 then some (a.toNat, 1)
    else if 0xC2 ≤ a ∧ a ≤ 0xDF then
      match rest with
      | b :: _ => do
        let x ← continuation? 0x80 0xBF b
        return (a.toNat % 32 * 64 + x, 2)
      | _ => none
    else if 0xE0 ≤ a ∧ a ≤ 0xEF then
      match rest with
      | b :: c :: _ => do
        let x ← continuation? (if a = 0xE0 then 0xA0 else 0x80) (if a = 0xED then 0x9F else 0xBF) b
        let y ← continuation? 0x80 0xBF c
        return ((a.toNat % 16 * 64 + x) * 64 + y, 3)
      | _ => none
    else if 0xF0 ≤ a ∧ a ≤ 0xF4 then
      match rest with
      | b :: c :: d :: _ => do
        let x ← continuation? (if a = 0xF0 then 0x90 else 0x80) (if a = 0xF4 then 0x8F else 0xBF) b
        let y ← continuation? 0x80 0xBF c
        let z ← continuation? 0x80 0xBF d
        return (((a.toNat % 8 * 64 + x) * 64 + y) * 64 + z, 4)
      | _ => none
    else none

def ofCodePoint (c : Nat) : Text :=
  let tail (unit : Nat) : UInt8 := (0x80 + c / unit % 64).toUInt8
  if c < 0x80 then [c.toUInt8]
  else if c < 0x800 then [(0xC0 + c / 64).toUInt8, tail 1]
  else if c < 0x10000 then [(0xE0 + c / 4096).toUInt8, tail 64, tail 1]
  else [(0xF0 + c / 262144).toUInt8, tail 4096, tail 64, tail 1]

def ofChars (cs : List Char) : Text := cs.flatMap fun c => ofCodePoint c.toNat

end Lox.Text
