import Lox.Yaml.Stream

/-! Scalars without quotes, and what becomes of blanks and line breaks inside of scalars. -/
namespace Lox.Yaml

structure Gap where
  /-- Whether the words stand on different lines. -/
  isBroken : Bool := false
  /-- The blanks between words on the same line. -/
  blanks : List Char := []
  firstBreak : List Char := []
  moreBreaks : List Char := []

/-- What a gap becomes: one line break is a blank, and of several the first is left out. Separators of lines and
paragraphs are kept. -/
def Gap.text (g : Gap) : List Char :=
  if !g.isBroken then g.blanks
  else if g.firstBreak ≠ ['\n'] then g.firstBreak ++ g.moreBreaks
  else if g.moreBreaks.isEmpty then [' ']
  else g.moreBreaks

namespace Reading

/-- Takes the blanks and line breaks between two words. No tab may stand before the column `tabColumn` of a later
line. -/
def gap (tabColumn : Nat) : (bound : Nat) → Gap → Reading Gap
  | 0, _ => malformed
  | bound + 1, g => do
    need 1
    match ← peek with
    | none => return g
    | some c =>
      if isBlank c then
        if g.isBroken && c = '\t' && (← here).column < tabColumn then malformed
        skip
        gap tabColumn bound (if g.isBroken then g else { g with blanks := g.blanks ++ [c] })
      else if isBreak c then
        need 2
        let text ← takeBreak
        if g.isBroken then gap tabColumn bound { g with moreBreaks := g.moreBreaks ++ text }
        else gap tabColumn bound { g with isBroken := true, blanks := [], firstBreak := text }
      else return g

def isFlowMark (c : Char) : Bool := c ∈ [',', '?', '[', ']', '\x7b', '\x7d']

def plainWord (inFlow : Bool) : (bound : Nat) → Reading (List Char)
  -- a colon ends it only if a word ends there
  | 0 => malformed
  | bound + 1 => do
    match ← peek with
    | none => return []
    | some c =>
      let stops := isBlank c || isBreak c || (inFlow && isFlowMark c) ||
        (c = ':' && endsWord (← peekAt 1))
      if stops then return []
      else
        skip
        need 2
        return c :: (← plainWord inFlow bound)

/-- Takes the words of a plain scalar from behind a gap on, and gives the last gap, after which none came. Words on
later lines have to stand at the column `indent` at least. -/
def plainWords (inFlow : Bool) (indent : Nat) : (bound : Nat) → Gap → Reading (List Char × Gap)
  | 0, _ => malformed
  | bound + 1, g => do
    need 4
    if (← atMarker '-') || (← atMarker '.') || (← peek) = some '#' then return ([], g)
    let word ← bounded (plainWord inFlow)
    let g' : Gap := if word.isEmpty then g else {}
    let text := if word.isEmpty then [] else g.text ++ word
    if !(← peek).any fun c => isBlank c || isBreak c then return (text, g')
    let next ← bounded (gap indent · g')
    if !inFlow && (← here).column < indent then return (text, next)
    let (more, last) ← plainWords inFlow indent bound next
    return (text ++ more, last)

def plainScalar : Reading Unit := do
  let s ← get
  let line := (← here).line
  let (text, last) ← bounded (plainWords s.inFlow s.contentColumn · {})
  push (.scalar true (Text.ofChars text)) line
  if last.isBroken then allowKey true

end Reading
end Lox.Yaml
