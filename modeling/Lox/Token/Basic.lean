import Lox.Number.Basic
import Lox.Text.Basic

/-! Tokens: what a lexeme can be, how it is spelled, and where it stands. -/
namespace Lox

/-- A place in a source: the line, counted from one, and the number of bytes before it. -/
structure Pos where
  line : Nat
  offset : Nat
deriving DecidableEq, Inhabited

inductive Punct where
  | leftParen | rightParen | leftBrace | rightBrace | comma | dot | minus | plus | semicolon | slash | star
  | bang | bangEqual | equal | equalEqual | greater | greaterEqual | less | lessEqual
deriving DecidableEq

inductive Keyword where
  | kwAnd | kwBreak | kwClass | kwElse | kwFalse | kwFor | kwFun | kwIf | kwNil | kwOr | kwPrint | kwReturn
  | kwThis | kwTrue | kwVar | kwWhile
deriving DecidableEq

namespace Punct

def spelling : Punct → String
  | leftParen => "("
  | rightParen => ")"
  | leftBrace => "\x7b"
  | rightBrace => "\x7d"
  | comma => ","
  | dot => "."
  | minus => "-"
  | plus => "+"
  | semicolon => ";"
  | slash => "/"
  | star => "*"
  | bang => "!"
  | bangEqual => "!="
  | equal => "="
  | equalEqual => "=="
  | greater => ">"
  | greaterEqual => ">="
  | less => "<"
  | lessEqual => "<="

def kindName : Punct → String
  | leftParen => "LEFT_PAREN"
  | rightParen => "RIGHT_PAREN"
  | leftBrace => "LEFT_BRACE"
  | rightBrace => "RIGHT_BRACE"
  | comma => "COMMA"
  | dot => "DOT"
  | minus => "MINUS"
  | plus => "PLUS"
  | semicolon => "SEMICOLON"
  | slash => "SLASH"
  | star => "STAR"
  | bang => "BANG"
  | bangEqual => "BANG_EQUAL"
  | equal => "EQUAL"
  | equalEqual => "EQUAL_EQUAL"
  | greater => "GREATER"
  | greaterEqual => "GREATER_EQUAL"
  | less => "LESS"
  | lessEqual => "LESS_EQUAL"

def all : List Punct :=
  [leftParen, rightParen, leftBrace, rightBrace, comma, dot, minus, plus, semicolon, slash, star, bang,
    bangEqual, equal, equalEqual, greater, greaterEqual, less, lessEqual]

end Punct

namespace Keyword

def spelling : Keyword → String
  | kwAnd => "and"
  | kwBreak => "break"
  | kwClass => "class"
  | kwElse => "else"
  | kwFalse => "false"
  | kwFor => "for"
  | kwFun => "fun"
  | kwIf => "if"
  | kwNil => "nil"
  | kwOr => "or"
  | kwPrint => "print"
  | kwReturn => "return"
  | kwThis => "this"
  | kwTrue => "true"
  | kwVar => "var"
  | kwWhile => "while"

def kindName : Keyword → String
  | kwAnd => "AND"
  | kwBreak => "BREAK"
  | kwClass => "CLASS"
  | kwElse => "ELSE"
  | kwFalse => "FALSE"
  | kwFor => "FOR"
  | kwFun => "FUN"
  | kwIf => "IF"
  | kwNil => "NIL"
  | kwOr => "OR"
  | kwPrint => "PRINT"
  | kwReturn => "RETURN"
  | kwThis => "THIS"
  | kwTrue => "TRUE"
  | kwVar => "VAR"
  | kwWhile => "WHILE"

def all : List Keyword :=
  [kwAnd, kwBreak, kwClass, kwElse, kwFalse, kwFor, kwFun, kwIf, kwNil, kwOr, kwPrint, kwReturn, kwThis,
    kwTrue, kwVar, kwWhile]

def ofName? (name : Text) : Option Keyword := all.find? fun k => Text.ofString k.spelling == name

end Keyword

inductive Lexeme where
  | punct (p : Punct)
  | keyword (k : Keyword)
  | identifier (name : Text)
  | string (contents : Text)
  | number (digits : Text) (value : Number)
deriving DecidableEq

namespace Lexeme

def spelling : Lexeme → Text
  | punct p => p.spelling
  | keyword k => k.spelling
  | identifier name => name
  | string contents => "\"" ++ contents ++ "\""
  | number digits _ => digits

def kindName : Lexeme → String
  | punct p => p.kindName
  | keyword k => k.kindName
  | identifier _ => "IDENTIFIER"
  | string _ => "STRING"
  | number _ _ => "NUMBER"

end Lexeme

/-- A lexeme and where it stands: the line on which it ends, and the offset at which it starts. -/
structure Token where
  lexeme : Lexeme
  pos : Pos
deriving DecidableEq

namespace Token

def endName : String := "EOF"

/-- The kinds of token by name, in the order of their codes, which start at -1. -/
def kindNames : List String :=
  [endName] ++ Punct.all.map Punct.kindName ++ ["IDENTIFIER", "STRING", "NUMBER"] ++
    Keyword.all.map Keyword.kindName

def kindNameOfCode (code : Int) : Text :=
  let known := if code < -1 then none else kindNames[(code + 1).toNat]?
  match known with
  | some name => name
  | none => "tokenType(" ++ Text.ofInt code ++ ")"

end Token
end Lox
