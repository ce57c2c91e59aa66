/-! Texts are sequences of bytes. Sources, string values and everything that is printed are texts; none of
them has to be valid UTF-8. -/
namespace Lox

/-- A sequence of bytes, compared and ordered byte by byte. -/
abbrev Text := List UInt8

namespace Text

def ofString (s : String) : Text := s.toByteArray.data.toList

instance : Coe String Text := ⟨ofString⟩

def ofNat (n : Nat) : Text := (Nat.toDigits 10 n).map Char.toUInt8

def ofInt : Int → Text
  | .ofNat n => ofNat n
  | .negSucc n => "-" ++ ofNat (n + 1)

def join (sep : Text) : List Text → Text
  | [] => []
  | [t] => t
  | t :: ts => t ++ sep ++ join sep ts

def newline : UInt8 := 10

def isDigit (b : UInt8) : Bool := (Char.ofUInt8 b).isDigit

def isLetter (b : UInt8) : Bool := (Char.ofUInt8 b).isAlpha || (Char.ofUInt8 b) == '_'

def isNameByte (b : UInt8) : Bool := isLetter b || isDigit b

def digitValue (b : UInt8) : Nat := b.toNat - '0'.toNat

def digitsValue (ds : Text) : Nat := ds.foldl (fun n b => 10 * n + digitValue b) 0

end Text
end Lox
