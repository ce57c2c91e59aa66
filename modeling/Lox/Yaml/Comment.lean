import Lox.Yaml.Stream

/-! Passing over blanks and comments. -/
namespace Lox.Yaml.Reading

def commentReach : Nat := 512

/-- How many characters stand before the next comment, from the `n`th on, if all of them fit. -/
def commentAhead (fits : Char → Bool) : (reach : Nat) → (n : Nat) → Reading (Option Nat)
  | 0, _ => return none
  | reach + 1, n => do
    need (n + 1)
    match ← peekAt n with
    | none => return none
    | some c =>
      if c = '#' then return some n
      else if fits c then commentAhead fits reach (n + 1)
      else return none

def skipLine : Reading Unit := skipWhile (!isBreak ·)

def skipBreak : Reading Unit := do
  if (← peek).any isBreak then
    need 2
    let _ ← takeBreak

def skipTo (index : Nat) : (bound : Nat) → Reading Unit
  | 0 => malformed
  | bound + 1 => do
    need 1
    if (← here).index < index then
      if (← peek).any isBreak then skipBreak else skip
      skipTo index bound

def skipLineComment : Reading Unit := do
  if !(← get).source.onFreshLine then
    match ← commentAhead isBlank commentReach 0 with
    | none => return
    | some n =>
      bounded (skipTo ((← here).index + n))
      skipLine

/-- Passes a comment, and the comments on the lines below it, whatever blanks and empty lines are between. -/
def skipComments : (bound : Nat) → Reading Unit
  | 0 => malformed
  | bound + 1 => do
    skipLine
    need 2
    if (← peek).any fun c => c = '\r' || c = '\n' then
      let fits (c : Char) : Bool := isBlank c || c = '\r' || c = '\n'
      match ← commentAhead fits (commentReach - 1) 1 with
      | none => return
      | some n =>
        bounded (skipTo ((← here).index + n))
        skipComments bound

/-- Passes over all that stands before the next token. Tabs count as blanks only where no key may start. -/
def skipToToken : (bound : Nat) → Reading Unit
  | 0 => malformed
  | bound + 1 => do
    need 1
    if (← here).column = 0 && (← get).source.readAtMark then skip
    let s ← get
    skipWhile fun c => c = ' ' || ((s.inFlow || !s.keyAllowed) && c = '\t')
    if (← peek) = some '#' then bounded skipComments
    if (← peek).any isBreak then
      skipBreak
      if !s.inFlow then allowKey true
      skipToToken bound

end Lox.Yaml.Reading
