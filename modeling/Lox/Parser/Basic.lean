import Lox.SyntaxError
import Lox.Syntax.Stmt

/-! The ground that parsing stands on. A parser takes tokens off the front of what is left, and may report errors
without giving up. When it gives up, the declaration around it is dropped and parsing goes on behind it. -/
namespace Lox

namespace Parser

structure State where
  rest : List Token
  /-- Where the input ends. -/
  endPos : Pos
  /-- The errors reported so far, the newest first. -/
  errors : List SyntaxError
  /-- The lines on which parsing went on after it had given up, the newest first. -/
  resumed : List Nat

/-- Why a parser gave up: it reported an error that it cannot go on from, or its bound was too small. -/
inductive Stop where
  | failed
  | exhausted
deriving DecidableEq

structure Context where
  inFunction : Bool := false
  inLoop : Bool := false
  inClass : Bool := false

def Context.enterFunction (c : Context) : Context := { c with inFunction := true, inLoop := false }

def Context.enterLoop (c : Context) : Context := { c with inLoop := true }

def Context.enterClass (c : Context) : Context := { c with inClass := true }

end Parser

abbrev Parser (α : Type) := EStateM Parser.Stop Parser.State α

namespace Parser

def State.site (s : State) : SyntaxError.Site :=
  match s.rest with
  | t :: _ => .token t
  | [] => .endOfInput s.endPos

def State.report (s : State) (cause : SyntaxError.Cause) (site : SyntaxError.Site) : State :=
  { s with errors := ⟨cause, site⟩ :: s.errors }

def report (cause : SyntaxError.Cause) (site : SyntaxError.Site) : Parser Unit :=
  fun s => .ok () (s.report cause site)

def reportHere (cause : SyntaxError.Cause) : Parser Unit :=
  fun s => .ok () (s.report cause s.site)

def fail {α : Type} (cause : SyntaxError.Cause) : Parser α :=
  fun s => .error .failed (s.report cause s.site)

def exhausted {α : Type} : Parser α := fun s => .error .exhausted s

def take? {α : Type} (f : Token → Option α) : Parser (Option α) := fun s =>
  match s.rest with
  | [] => .ok none s
  | t :: rest =>
    match f t with
    | some a => .ok (some a) { s with rest }
    | none => .ok none s

def accept? (lexeme : Lexeme) : Parser (Option Pos) :=
  take? fun t => if t.lexeme = lexeme then some t.pos else none

def nextIs (lexeme : Lexeme) : Parser Bool :=
  fun s => .ok (s.rest.head?.any (·.lexeme = lexeme)) s

def atEnd : Parser Bool := fun s => .ok s.rest.isEmpty s

def expect (lexeme : Lexeme) (cause : SyntaxError.Cause) : Parser Pos := do
  match ← accept? lexeme with
  | some pos => return pos
  | none => fail cause

def expectName (cause : SyntaxError.Cause) : Parser Name := do
  let name? ← take? fun t =>
    match t.lexeme with
    | .identifier text => some ⟨text, t.pos⟩
    | _ => none
  match name? with
  | some name => return name
  | none => fail cause

def items {α : Type} (tooMany : SyntaxError.Cause) (item : Parser α) :
    (bound : Nat) → (before : Nat) → Parser (List α)
  -- an item too many is reported, and parsing goes on
  | 0, _ => exhausted
  | bound + 1, before => do
    if maxListLength ≤ before then reportHere tooMany
    let a ← item
    match ← accept? (.punct .comma) with
    | some _ => return a :: (← items tooMany item bound (before + 1))
    | none => return [a]

def list {α : Type} (tooMany : SyntaxError.Cause) (item : Parser α) (bound : Nat) : Parser (List α) := do
  if ← nextIs (.punct .rightParen) then return [] else items tooMany item bound 0

def startsStatement (t : Token) : Bool :=
  match t.lexeme with
  | .keyword k => k ∈ [.kwClass, .kwFun, .kwVar, .kwFor, .kwIf, .kwWhile, .kwPrint, .kwReturn, .kwBreak]
  | _ => false

/-- Drops tokens up to the next boundary of statements: behind a semicolon, or before a keyword that starts a
statement. The token `last` has been dropped already. -/
def skipFrom (last : Token) : List Token → List Token
  | [] => []
  | t :: rest =>
    if last.lexeme = .punct .semicolon ∨ startsStatement t then t :: rest else skipFrom t rest

def skip : List Token → List Token
  | [] => []
  | t :: rest => skipFrom t rest

def State.resume (s : State) : State :=
  let next := { s with rest := skip s.rest }
  { next with resumed := next.site.pos.line :: s.resumed }

def recovering {α : Type} (p : Parser α) : Parser (Option α) := fun s =>
  match p s with
  | .ok a s => .ok (some a) s
  | .error .failed s => .ok none s.resume
  | .error .exhausted s => .error .exhausted s

end Parser
end Lox
