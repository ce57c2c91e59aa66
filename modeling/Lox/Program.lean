import Lox.Parser.Stmt
import Lox.Token.Scan

/-! Programs: the statements of a source that could be parsed, and all that is wrong with it. -/
namespace Lox

structure Program where
  /-- The statements at the top level that could be parsed. -/
  stmts : List Stmt
  /-- All errors, those of the scanner first, in the order in which they were found. -/
  errors : List SyntaxError
  /-- The lines on which parsing went on after an error, in order. -/
  resumed : List Nat

namespace Program

def isValid (p : Program) : Bool := p.errors.isEmpty

def ofTokens (tokens : List Token) (endPos : Pos) : Program :=
  let bound := tokens.length + 3
  match Parser.program bound bound ⟨tokens, endPos, [], []⟩ with
  | .ok stmts s => ⟨stmts, s.errors.reverse, s.resumed.reverse⟩
  | .error _ s => ⟨[], s.errors.reverse, s.resumed.reverse⟩

def ofSource (source : Text) : Program :=
  let scan := Scan.ofSource source
  let program := ofTokens scan.tokens scan.endPos
  { program with errors := scan.errors ++ program.errors }

end Program
end Lox
