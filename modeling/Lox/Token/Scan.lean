import Lox.Number.Decimal
import Lox.SyntaxError

/-! Sources as sequences of pieces. A piece is a blank, a comment, a token, or bytes that are rejected, and each
piece starts where the one before it ends, so the pieces of a source always make up the whole of it. Lines are counted
on the way: at a line break between two pieces and inside of strings, but nowhere else. -/
namespace Lox

inductive Piece.Kind where
  | blank
  | comment
  | token (lexeme : Lexeme)
  | rejected (cause : SyntaxError.Cause)
deriving DecidableEq

structure Piece where
  kind : Piece.Kind
  bytes : Text
deriving DecidableEq

namespace Piece

def ofPunct (p : Punct) : Piece := ⟨.token (.punct p), p.spelling⟩

def withEqual (rest : Text) (bare followed : Punct) : Piece :=
  if rest.head? = some '='.toUInt8 then ofPunct followed else ofPunct bare

def slashOrComment (b : UInt8) (rest : Text) : Piece :=
  -- a comment ends before the line break
  if rest.head? = some '/'.toUInt8 then ⟨.comment, b :: rest.takeWhile (· ≠ Text.newline)⟩
  else ofPunct .slash

def string (b : UInt8) (rest : Text) : Piece :=
  -- over line breaks, if need be
  let contents := rest.takeWhile (· ≠ b)
  if contents.length < rest.length then
    ⟨.token (.string contents), b :: contents ++ [b]⟩
  else
    ⟨.rejected .unterminatedString, b :: rest⟩

def fraction (rest : Text) : Text :=
  -- a point counts only if a digit follows it
  match rest with
  | point :: d :: more =>
    if point = '.'.toUInt8 ∧ Text.isDigit d then d :: more.takeWhile Text.isDigit else []
  | _ => []

def number (b : UInt8) (rest : Text) : Piece :=
  -- a number that is too large is rejected
  let whole := b :: rest.takeWhile Text.isDigit
  let places := fraction (rest.dropWhile Text.isDigit)
  let bytes := if places.isEmpty then whole else whole ++ "." ++ places
  match (Decimal.ofDigits whole places).toNumber? with
  | some value => ⟨.token (.number bytes value), bytes⟩
  | none => ⟨.rejected .invalidNumber, bytes⟩

def word (b : UInt8) (rest : Text) : Piece :=
  let name := b :: rest.takeWhile Text.isNameByte
  match Keyword.ofName? name with
  | some k => ⟨.token (.keyword k), name⟩
  | none => ⟨.token (.identifier name), name⟩

def first (b : UInt8) (rest : Text) : Piece :=
  match Char.ofUInt8 b with
  | '(' => ofPunct .leftParen
  | ')' => ofPunct .rightParen
  | '\x7b' => ofPunct .leftBrace
  | '\x7d' => ofPunct .rightBrace
  | ',' => ofPunct .comma
  | '.' => ofPunct .dot
  | '-' => ofPunct .minus
  | '+' => ofPunct .plus
  | ';' => ofPunct .semicolon
  | '*' => ofPunct .star
  | '!' => withEqual rest .bang .bangEqual
  | '=' => withEqual rest .equal .equalEqual
  | '<' => withEqual rest .less .lessEqual
  | '>' => withEqual rest .greater .greaterEqual
  | '/' => slashOrComment b rest
  | '"' => string b rest
  | ' ' | '\r' | '\t' | '\n' => ⟨.blank, [b]⟩
  | _ =>
    if Text.isDigit b then number b rest
    else if Text.isLetter b then word b rest
    else ⟨.rejected .unexpectedCharacter, [b]⟩

/-- The pieces of a source after its first `skip` bytes. -/
def splitFrom : (skip : Nat) → Text → List Piece
  | _, [] => []
  | skip + 1, _ :: bs => splitFrom skip bs
  | 0, b :: bs =>
    let piece := first b bs
    piece :: splitFrom (piece.bytes.length - 1) bs

def split (source : Text) : List Piece := splitFrom 0 source

/-- The line reached by a walk over the inside of a string, up to its closing quote or to the end of the source. -/
def lineInString (line : Nat) : Text → Nat
  | [] => line
  | b :: bs =>
    if b = '"'.toUInt8 then line
    else lineInString (if b = Text.newline then line + 1 else line) bs

/-- The line reached behind a piece. Only blanks and strings can lead to another one. -/
def lineBehind (line : Nat) (piece : Piece) : Nat :=
  match piece.kind with
  | .blank => if piece.bytes = [Text.newline] then line + 1 else line
  | .token (.string _) | .rejected .unterminatedString => lineInString line piece.bytes.tail
  | .comment | .token _ | .rejected _ => line

end Piece

def Pos.advance (p : Pos) (piece : Piece) : Pos := ⟨piece.lineBehind p.line, p.offset + piece.bytes.length⟩

def Pos.start : Pos := ⟨1, 0⟩

/-- Where a piece stands that starts at `p`: on the line that is reached behind it. -/
def Pos.mark (p : Pos) (piece : Piece) : Pos := ⟨piece.lineBehind p.line, p.offset⟩

/-- What the scanner gives for a source, one after the other: tokens, and at last the end of the input. -/
inductive Scan.Item where
  | token (t : Token)
  | ending (pos : Pos)
deriving DecidableEq

namespace Scan.Item

def kindName : Item → String
  | token t => t.lexeme.kindName
  | ending _ => Token.endName

def spelling : Item → Text
  | token t => t.lexeme.spelling
  | ending _ => []

def pos : Item → Pos
  | token t => t.pos
  | ending pos => pos

def token? : Item → Option Token
  | token t => some t
  | ending _ => none

end Scan.Item

structure Scan where
  items : List Scan.Item
  errors : List SyntaxError
deriving DecidableEq

namespace Scan

def tokens (s : Scan) : List Token := s.items.filterMap Item.token?

def endPos (s : Scan) : Pos := endOf s.items
where
  endOf : List Item → Pos
    | [] => .start
    | .ending pos :: _ => pos
    | .token _ :: items => endOf items

def ofPieces : Pos → List Piece → Scan
  | p, [] => ⟨[.ending p], []⟩
  | p, piece :: pieces =>
    let scan := ofPieces (p.advance piece) pieces
    let mark := p.mark piece
    match piece.kind with
    | .blank | .comment => scan
    | .token lexeme => { scan with items := .token ⟨lexeme, mark⟩ :: scan.items }
    | .rejected cause => { scan with errors := ⟨cause, .bytes mark⟩ :: scan.errors }

def ofSource (source : Text) : Scan := ofPieces .start (Piece.split source)

end Scan
end Lox
