import Lox.Token.Basic

/-! Syntax errors: a cause and the place that is blamed. -/
namespace Lox

inductive SyntaxError.Cause where
  | unexpectedCharacter | unterminatedString | invalidNumber
  | expectExpression
  | expectParenAfterExpression | expectParenAfterArguments | expectParenAfterParameters
  | expectParenAfterCondition | expectParenAfterClauses
  | expectParenAfterIf | expectParenAfterWhile | expectParenAfterFor | expectParenAfterName
  | expectBraceBeforeBody | expectBraceAfterBlock | expectBraceBeforeClassBody | expectBraceAfterClassBody
  | expectClassName | expectFunctionName | expectMethodName | expectParameterName | expectVariableName
  | expectPropertyName
  | expectSemicolonAfterValue | expectSemicolonAfterExpression | expectSemicolonAfterVariable
  | expectSemicolonAfterReturn | expectSemicolonAfterBreak | expectSemicolonAfterCondition
  | tooManyParameters | tooManyArguments
  | invalidAssignment | breakOutsideLoop | returnOutsideFunction | thisOutsideClass
deriving DecidableEq

def maxListLength : Nat := 255

namespace SyntaxError.Cause

def message : Cause → String
  | unexpectedCharacter => "Unexpected character."
  | unterminatedString => "Unterminated string."
  | invalidNumber => "Invalid number literal."
  | expectExpression => "Expect expression."
  | expectParenAfterExpression => "Expect ')' after expression."
  | expectParenAfterArguments => "Expect ')' after arguments."
  | expectParenAfterParameters => "Expect ')' after parameters."
  | expectParenAfterCondition => "Expect ')' after condition."
  | expectParenAfterClauses => "Expect ')' after for clauses."
  | expectParenAfterIf => "Expect '(' after 'if'."
  | expectParenAfterWhile => "Expect '(' after 'while'."
  | expectParenAfterFor => "Expect '(' after 'for'."
  | expectParenAfterName => "Expect '(' after name."
  | expectBraceBeforeBody => "Expect '\x7b' before body."
  | expectBraceAfterBlock => "Expect '\x7d' after block."
  | expectBraceBeforeClassBody => "Expect '\x7b' before class body."
  | expectBraceAfterClassBody => "Expect '\x7d' after class body."
  | expectClassName => "Expect class name."
  | expectFunctionName => "Expect function name."
  | expectMethodName => "Expect method name."
  | expectParameterName => "Expect parameter name."
  | expectVariableName => "Expect variable name."
  | expectPropertyName => "Expect property name after '.'."
  | expectSemicolonAfterValue => "Expect ';' after value."
  | expectSemicolonAfterExpression => "Expect ';' after expression."
  | expectSemicolonAfterVariable => "Expect ';' after variable declaration."
  | expectSemicolonAfterReturn => "Expect ';' after return value."
  | expectSemicolonAfterBreak => "Expect ';' after 'break'."
  | expectSemicolonAfterCondition => "Expect ';' after loop condition."
  | tooManyParameters => "Can't have more than 255 parameters."
  | tooManyArguments => "Can't have more than 255 arguments."
  | invalidAssignment => "Invalid assignment target."
  | breakOutsideLoop => "Can't use 'break' outside of a loop."
  | returnOutsideFunction => "Can't return from top-level code."
  | thisOutsideClass => "Can't use 'this' outside of a class."

end SyntaxError.Cause

inductive SyntaxError.Site where
  | bytes (pos : Pos)
  | token (t : Token)
  | endOfInput (pos : Pos)
deriving DecidableEq

def SyntaxError.Site.pos : SyntaxError.Site → Pos
  | bytes pos => pos
  | token t => t.pos
  | endOfInput pos => pos

structure SyntaxError where
  cause : SyntaxError.Cause
  site : SyntaxError.Site
deriving DecidableEq

namespace SyntaxError

def toText (e : SyntaxError) : Text :=
  let place : Text := match e.site with
    | .bytes _ => ""
    | .token t => " at '" ++ t.lexeme.spelling ++ "'"
    | .endOfInput _ => " at end"
  "[line " ++ Text.ofNat e.site.pos.line ++ "] Error" ++ place ++ ": " ++ e.cause.message

end SyntaxError
end Lox
