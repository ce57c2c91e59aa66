import Lox.Number.Layout
import Lox.Token.Scan

/-! Tokens as they are listed: the kind, the spelling, and the value of a string or a number. At the end of the input
only the kind is left. -/
namespace Lox

def Token.listing (t : Token) : Text :=
  let head := t.lexeme.kindName ++ Text.ofString " " ++ t.lexeme.spelling
  match t.lexeme with
  | .string contents => head ++ " " ++ contents
  | .number _ value => head ++ " " ++ value.toGeneralText
  | _ => head

def Token.endListing : Text := endName ++ Text.ofString " "

def Scan.Item.listing : Scan.Item → Text
  | token t => t.listing
  | ending _ => Token.endListing

end Lox
