import Lox.Yaml.Plain

/-! Scalars in single and double quotes. In single quotes a quote is written twice; in double quotes a backslash
starts an escape. -/
namespace Lox.Yaml

def escapes : List (Char × Char) :=
  [('0', '\x00'), ('a', '\x07'), ('b', '\x08'), ('t', '\t'), ('\t', '\t'), ('n', '\n'), ('v', '\x0b'),
    ('f', '\x0c'), ('r', '\r'), ('e', '\x1b'), (' ', ' '), ('"', '"'), ('\'', '\''), ('\\', '\\'),
    ('N', '\u0085'), ('_', '\u00a0'), ('L', '\u2028'), ('P', '\u2029')]

def escapeLengths : List (Char × Nat) := [('x', 2), ('u', 4), ('U', 8)]

def hexValue? (c : Char) : Option Nat :=
  let c := c.toLower
  if c.isDigit then some (c.toNat - '0'.toNat)
  else if 'a' ≤ c && c ≤ 'f' then some (c.toNat - 'a'.toNat + 10)
  else none

namespace Reading

def hexNumber (n : Nat) : Reading Nat := do
  need n
  let digits := (← get).source.ready.take n
  if digits.length < n then malformed
  digits.foldlM (fun value c => do
    match hexValue? c with
    | some d =>
      skip
      return 16 * value + d
    | none => malformed) 0

def escaped : Reading Char := do
  match ← peek with
  | none => malformed
  | some c =>
    match escapes.lookup c, escapeLengths.lookup c with
    | some e, _ =>
      skip
      return e
    | none, some n =>
      skip
      let code ← hexNumber n
      if (0xD800 ≤ code && code ≤ 0xDFFF) || 0x10FFFF < code then malformed
      return Char.ofNat code
    | none, none => malformed

/-- Takes a word of a scalar in quotes, and says whether it ended with an escaped line break. -/
def quotedWord (quote : Char) : (bound : Nat) → Reading (List Char × Bool)
  | 0 => malformed
  | bound + 1 => do
    match ← peek with
    | none => return ([], false)
    | some c =>
      let next ← peekAt 1
      if isBlank c || isBreak c then return ([], false)
      else if c = quote then
        if c = '\'' && next = some c then
          skip
          skip
          more c bound
        else return ([], false)
      else if quote = '"' && c = '\\' then
        skip
        if next.any isBreak then
          need 2
          let _ ← takeBreak
          return ([], true)
        else more (← escaped) bound
      else
        skip
        more c bound
where
  /-- Puts a character in front of the rest of the word. -/
  more (c : Char) (bound : Nat) : Reading (List Char × Bool) := do
    need 2
    let (word, escapesBreak) ← quotedWord quote bound
    return (c :: word, escapesBreak)

def quotedWords (quote : Char) : (bound : Nat) → Reading (List Char)
  | 0 => malformed
  | bound + 1 => do
    need 4
    if (← atMarker '-') || (← atMarker '.') || (← peek).isNone then malformed
    let (word, escapesBreak) ← bounded (quotedWord quote)
    need 1
    if (← peek) = some quote then
      skip
      return word
    let g ← bounded (gap 0 · { isBroken := escapesBreak })
    return word ++ g.text ++ (← quotedWords quote bound)

def quotedScalar (quote : Char) : Reading Unit := do
  let line := (← here).line
  skip
  let text ← bounded (quotedWords quote)
  push (.scalar false (Text.ofChars text)) line

end Reading
end Lox.Yaml
