import Lox.Yaml.Literal
import Lox.Yaml.Tag

/-! The next token of a stream. -/
namespace Lox.Yaml.Reading

def streamEnd : Reading Unit := do
  modify fun s => { s with source := s.source.endLine }
  closeBlocks fun _ => true
  dropKey
  allowKey false
  push .streamEnd (← here).line

def directiveLine : Reading Unit := do
  closeBlocks fun _ => true
  dropKey
  allowKey false
  directive

def documentMark (kind : Token.Kind) : Reading Unit := do
  closeBlocks fun _ => true
  dropKey
  allowKey false
  pushMark kind 3

def flowStart (kind : Token.Kind) : Reading Unit := do
  noteKey
  let s ← get
  if maxDepth ≤ s.outerKeys.length then malformed
  set { s with key := none, outerKeys := s.key :: s.outerKeys, keyAllowed := true }
  pushMark kind 1

def flowEnd (kind : Token.Kind) : Reading Unit := do
  dropKey
  let s ← get
  match s.outerKeys with
  | key :: outerKeys => set { s with key, outerKeys }
  | [] => pure ()
  allowKey false
  pushMark kind 1

def flowEntry : Reading Unit := do
  dropKey
  allowKey true
  pushMark .flowEntry 1

def blockEntry : Reading Unit := do
  let s ← get
  if !s.inFlow then
    if !s.keyAllowed then malformed
    openBlock s.source.mark.column none .blockSequence s.source.mark.line
  dropKey
  allowKey true
  pushMark .blockEntry 1

def explicitKey : Reading Unit := do
  let s ← get
  if !s.inFlow then
    if !s.keyAllowed then malformed
    openBlock s.source.mark.column none .blockMapping s.source.mark.line
  dropKey
  allowKey !s.inFlow
  pushMark .key 1

/-- A colon behind something that turns out to be a key. -/
def valueOfKey (k : Key) : Reading Unit := do
  modify (·.insert k.token .key k.mark.line)
  openBlock k.mark.column (some k.token) .blockMapping k.mark.line
  modify fun s => { s with key := none }
  allowKey false
  pushMark .value 1

def bareValue : Reading Unit := do
  let s ← get
  if !s.inFlow then
    if !s.keyAllowed then malformed
    openBlock s.source.mark.column none .blockMapping s.source.mark.line
  allowKey !s.inFlow
  pushMark .value 1

def value : Reading Unit := do
  match (← get).key with
  | some k => if ← checkKey k then valueOfKey k else bareValue
  | none => bareValue

def asKey (token : Reading Unit) : Reading Unit := do
  noteKey
  allowKey false
  token

/-- Takes a block of lines. A key may follow it, but it is none. -/
def notAsKey (token : Reading Unit) : Reading Unit := do
  dropKey
  allowKey true
  token

def isIndicator (c : Char) : Bool :=
  -- some of them can start a plain scalar if more of a word follows
  c ∈ ['-', '?', ':', ',', '[', ']', '\x7b', '\x7d', '#', '&', '*', '!', '|', '>', '\'', '"', '%', '@', '\x60']

def startsPlain (inFlow : Bool) (c : Char) (next : Option Char) : Bool :=
  !(isBlank c || isBreak c || isIndicator c) || (c = '-' && !next.any isBlank) ||
    (!inFlow && (c = '?' || c = ':') && !endsWord next)

def tokenAt (c : Char) (next : Option Char) : Reading Unit := do
  let inFlow := (← get).inFlow
  match c with
  | '[' => flowStart .flowSequence
  | '\x7b' => flowStart .flowMapping
  | ']' => flowEnd .flowSequenceEnd
  | '\x7d' => flowEnd .flowMappingEnd
  | ',' => flowEntry
  | '*' => asKey (anchor .aliasOf)
  | '&' => asKey (anchor .anchor)
  | '!' => asKey tag
  | '\'' => asKey (quotedScalar c)
  | '"' => asKey (quotedScalar c)
  | _ =>
    if c = '?' && (inFlow || endsWord next) then explicitKey
    else if c = ':' && (inFlow || endsWord next) then value
    else if (c = '|' || c = '>') && !inFlow then notAsKey (blockScalar (c = '>'))
    else if startsPlain inFlow c next then asKey plainScalar
    else malformed

/-- Puts the next token into the queue, and what had to wait for it. -/
def fetch : Reading Unit := do
  need 1
  bounded skipToToken
  let column := (← here).column
  closeBlocks (column < ·)
  need 4
  match ← peek with
  | none => streamEnd
  | some c =>
    let next ← peekAt 1
    if column = 0 && c = '%' then directiveLine
    else if ← atMarker '-' then documentMark .documentStart
    else if ← atMarker '.' then documentMark .documentEnd
    else if c = '-' && endsWord next then blockEntry
    else
      tokenAt c next
      skipLineComment

def lookahead : Nat := 3

/-- Reads ahead, and further as long as the first token may turn out to be a key. -/
def readAhead : (bound : Nat) → Reading Unit
  | 0 => malformed
  | bound + 1 => do
    let s ← get
    let goesOn ←
      if s.queue.length < lookahead then pure true
      else match s.keyAt? s.taken with
        | some k => checkKey k
        | none => pure false
    if goesOn then
      fetch
      readAhead bound

def nextToken : Reading Token := do
  bounded readAhead
  match (← get).queue with
  | t :: _ => return t
  | [] => malformed

def dropToken : Reading Unit := modify fun s => { s with queue := s.queue.drop 1, taken := s.taken + 1 }

end Lox.Yaml.Reading
