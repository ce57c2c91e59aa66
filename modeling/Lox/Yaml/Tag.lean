import Lox.Yaml.Comment
import Lox.Yaml.Quoted

/-! Anchors, aliases, tags and directives. -/
namespace Lox.Yaml.Reading

def name : Reading (List Char) := bounded (takeWhile isNameChar)

def anchor (kind : Text → Token.Kind) : Reading Unit := do
  let line := (← here).line
  skip
  let letters ← name
  let next ← peek
  let ends := endsWord next || next.any (· ∈ ['?', ':', ',', ']', '\x7d', '%', '@', '\x60'])
  if letters.isEmpty || !ends then malformed
  push (kind (Text.ofChars letters)) line

def widthOf? (octet : Nat) : Option Nat :=
  if octet < 0x80 then some 1
  else if octet < 0xC0 then none
  else if octet < 0xE0 then some 2
  else if octet < 0xF0 then some 3
  else if octet < 0xF8 then some 4
  else none

def octet : Reading Nat := do
  need 3
  expect '%'
  hexNumber 2

def octets : Reading Text := do
  let first ← octet
  match widthOf? first with
  | none => malformed
  | some n =>
    let others ← (List.range (n - 1)).mapM fun _ => do
      let b ← octet
      if 0x80 ≤ b && b < 0xC0 then return b else malformed
    return (first :: others).map Nat.toUInt8

def isTagChar (c : Char) : Bool :=
  isNameChar c ||
    c ∈ [';', '/', '?', ':', '@', '&', '=', '+', '$', ',', '.', '!', '~', '*', '\'', '(', ')', '[', ']']

def tagChars : (bound : Nat) → Reading Text
  | 0 => malformed
  | bound + 1 => do
    need 1
    match ← peek with
    | none => return []
    | some c =>
      if c = '%' then
        let text ← octets
        return text ++ (← tagChars bound)
      else if isTagChar c then
        skip
        return Text.ofChars [c] ++ (← tagChars bound)
      else return []

def handle : Reading Text := do
  need 1
  expect '!'
  let letters ← name
  if (← peek) = some '!' then
    skip
    return Text.ofChars ('!' :: letters ++ ['!'])
  else return Text.ofChars ('!' :: letters)

def isFullHandle (h : Text) : Bool := 1 < h.length && h.getLast? = some '!'.toUInt8

def tagToken : Reading Token.Kind := do
  need 2
  if (← peekAt 1) = some '<' then
    skip
    skip
    let text ← bounded tagChars
    if text.isEmpty then malformed
    expect '>'
    return .tag [] text
  else
    let h ← handle
    let text ← bounded tagChars
    if isFullHandle h then
      if text.isEmpty then malformed
      return .tag h text
    else if h.drop 1 ++ text = [] then return .tag [] h
    else return .tag "!" (h.drop 1 ++ text)

def tag : Reading Unit := do
  let line := (← here).line
  let kind ← tagToken
  need 1
  if !endsWord (← peek) then malformed
  push kind line

def versionNumber : Reading Nat := do
  let digits ← bounded (takeWhile Char.isDigit)
  if digits.isEmpty || 2 < digits.length then malformed
  return digits.foldl (fun n c => 10 * n + (c.toNat - '0'.toNat)) 0

def directiveToken (name : List Char) : Reading Token.Kind := do
  if name = ['Y', 'A', 'M', 'L'] then
    skipWhile isBlank
    let major ← versionNumber
    expect '.'
    return .version major (← versionNumber)
  else if name = ['T', 'A', 'G'] then
    skipWhile isBlank
    let h ← handle
    if h.length ≠ 1 && !isFullHandle h then malformed
    need 1
    if !(← peek).any isBlank then malformed
    skipWhile isBlank
    let expansion ← bounded tagChars
    if expansion.isEmpty then malformed
    need 1
    if !endsWord (← peek) then malformed
    return .tagHandle h expansion
  else malformed

def directive : Reading Unit := do
  let line := (← here).line
  skip
  let letters ← name
  if letters.isEmpty || !endsWord (← peek) then malformed
  let kind ← directiveToken letters
  skipWhile isBlank
  if (← peek) = some '#' then skipLine
  if !endsLine (← peek) then malformed
  skipBreak
  push kind line

end Lox.Yaml.Reading
