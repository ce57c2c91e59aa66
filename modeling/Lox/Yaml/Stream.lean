import Lox.Yaml.Source
import Lox.Yaml.Token

/-! Documents as streams of tokens. Whether a token starts a key shows only at the colon behind it, so tokens wait
in a queue, and the places where a key may have started are kept until then. -/
namespace Lox.Yaml

structure Key where
  /-- A key is required where a line starts at the indentation of the mapping around it. -/
  required : Bool
  /-- The number of the token that the key starts with. -/
  token : Nat
  mark : Mark

def maxKeyLength : Nat := 1024

/-- Whether the colon of a key may still come: it has to be on the same line, and not too far off. -/
def Key.isLive (k : Key) (here : Mark) : Bool :=
  here.line ≤ k.mark.line && here.index ≤ k.mark.index + maxKeyLength

def maxDepth : Nat := 10000

structure Stream where
  source : Source
  /-- The tokens that wait to be taken. -/
  queue : List Token
  /-- The number of tokens that have been taken. -/
  taken : Nat
  /-- Where a key may have started in the innermost collection. -/
  key : Option Key
  /-- Where keys may have started in the collections around it, for each that is in brackets or braces. -/
  outerKeys : List (Option Key)
  /-- The columns at which blocks start, the innermost first. -/
  indents : List Nat
  /-- Whether a key may start here. -/
  keyAllowed : Bool
  /-- More than the number of steps that anything on this stream takes. -/
  bound : Nat

namespace Stream

def ofText (text : Text) : Stream :=
  ⟨.ofText text, [], 0, none, [], [], true, 8 * text.length + 64⟩

def inFlow (s : Stream) : Bool := !s.outerKeys.isEmpty

def contentColumn (s : Stream) : Nat := s.indents.head?.elim 0 (· + 1)

def keyAt? (s : Stream) (number : Nat) : Option Key :=
  (s.key :: s.outerKeys).findSome? fun k => k.filter (·.token = number)

def push (s : Stream) (kind : Token.Kind) (line : Nat) : Stream :=
  { s with queue := s.queue ++ [⟨kind, line⟩] }

def insert (s : Stream) (number : Nat) (kind : Token.Kind) (line : Nat) : Stream :=
  { s with queue := s.queue.insertIdx (number - s.taken) ⟨kind, line⟩ }

end Stream

abbrev Reading (α : Type) := StateT Stream Option α

namespace Reading

variable {α : Type}

def malformed : Reading α := failure

def bounded (f : Nat → Reading α) : Reading α := do f (← get).bound

def need (n : Nat) : Reading Unit := do
  let s ← get
  match s.source.need? n with
  | some source => set { s with source }
  | none => malformed

def peekAt (n : Nat) : Reading (Option Char) := return (← get).source.ready[n]?

def peek : Reading (Option Char) := peekAt 0

def here : Reading Mark := return (← get).source.mark

def skip : Reading Unit := modify fun s => { s with source := s.source.skip }

def takeBreak : Reading (List Char) := do
  let s ← get
  let (text, source) := s.source.takeBreak
  set { s with source }
  return text

def takeWhile (fits : Char → Bool) : (bound : Nat) → Reading (List Char)
  | 0 => malformed
  | bound + 1 => do
    need 1
    match ← peek with
    | none => return []
    | some c =>
      if fits c then
        skip
        return c :: (← takeWhile fits bound)
      else return []

def skipWhile (fits : Char → Bool) : Reading Unit := do
  let _ ← bounded (takeWhile fits)

def expect (c : Char) : Reading Unit := do
  if (← peek) = some c then skip else malformed

/-- Whether a line starts here that ends a document: three dashes or three points that are a word. -/
def atMarker (c : Char) : Reading Bool := do
  let s ← get
  return s.source.mark.column = 0 && s.source.ready.take 3 = [c, c, c] && endsWord s.source.ready[3]?

def push (kind : Token.Kind) (line : Nat) : Reading Unit := modify (·.push kind line)

def pushMark (kind : Token.Kind) (n : Nat) : Reading Unit := do
  push kind (← here).line
  modify fun s => { s with source := n.repeat Source.skip s.source }

def allowKey (allowed : Bool) : Reading Unit := modify fun s => { s with keyAllowed := allowed }

/-- Whether the colon of a key may still come. It must, if the key is required. -/
def checkKey (k : Key) : Reading Bool := do
  if k.isLive (← here) then return true
  else if k.required then malformed
  else return false

def dropKey : Reading Unit := do
  if (← get).key.any (·.required) then malformed
  else modify fun s => { s with key := none }

def noteKey : Reading Unit := do
  let s ← get
  if s.keyAllowed then
    let mark := s.source.mark
    dropKey
    modify fun s => { s with
      key := some ⟨!s.inFlow && s.indents.head? = some mark.column, s.taken + s.queue.length, mark⟩ }

/-- Starts a block at a column, unless the innermost block starts there or further in, and puts its token in front
of the token of a given number, or else at the end. -/
def openBlock (column : Nat) (number : Option Nat) (kind : Token.Kind) (line : Nat) : Reading Unit := do
  let s ← get
  if !s.inFlow && s.contentColumn ≤ column then
    if maxDepth ≤ s.indents.length then malformed
    let s := { s with indents := column :: s.indents }
    match number with
    | some n => set (s.insert n kind line)
    | none => set (s.push kind line)

def closeBlocks (ends : Nat → Bool) : Reading Unit := do
  let s ← get
  if !s.inFlow then
    let line := s.source.mark.line
    let closed := s.indents.takeWhile ends
    set { s with
      queue := s.queue ++ closed.map fun _ => Token.mk .blockEnd line
      indents := s.indents.drop closed.length }

end Reading
end Lox.Yaml
