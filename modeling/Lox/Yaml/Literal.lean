import Lox.Yaml.Comment

/-! Scalars that are written as blocks of lines: literal ones keep their line breaks, and folded ones join lines. -/
namespace Lox.Yaml

inductive Chomping where
  | clip
  | strip
  | keep

def Chomping.apply (c : Chomping) (firstBreak moreBreaks : List Char) : List Char :=
  match c with
  | clip => firstBreak
  | strip => []
  | keep => firstBreak ++ moreBreaks

namespace Reading

def chomping? : Reading (Option Chomping) := do
  need 1
  match ← peek with
  | some '+' =>
    skip
    return some .keep
  | some '-' =>
    skip
    return some .strip
  | _ => return none

def indentation? : Reading (Option Nat) := do
  need 1
  match ← peek with
  | some c =>
    if c = '0' then malformed
    else if c.isDigit then
      skip
      return some (c.toNat - '0'.toNat)
    else return none
  | none => return none

def blockHeader : Reading (Chomping × Option Nat) := do
  match ← chomping? with
  | some c => return (c, ← indentation?)
  | none =>
    match ← indentation? with
    | some n => return ((← chomping?).getD .clip, some n)
    | none => return (.clip, none)

def skipIndent (indent : Option Nat) : (bound : Nat) → Reading Unit
  | 0 => malformed
  | bound + 1 => do
    need 1
    if indent.all ((← here).column < ·) && (← peek) = some ' ' then
      skip
      skipIndent indent bound
    else return

/-- Takes empty lines and the indentation behind them. Gives their line breaks and the deepest column reached. -/
def emptyLines (indent : Option Nat) : (bound : Nat) → (deepest : Nat) → Reading (List Char × Nat)
  | 0, _ => malformed
  | bound + 1, deepest => do
    bounded (skipIndent indent)
    let deepest := max deepest (← here).column
    if indent.all ((← here).column < ·) && (← peek) = some '\t' then malformed
    if (← peek).any isBreak then
      need 2
      let text ← takeBreak
      let (more, deepest) ← emptyLines indent bound deepest
      return (text ++ more, deepest)
    else return ([], deepest)

/-- Takes the lines of a block at the column `indent`. The breaks before them are given, and whether the line
before them started with a blank; with the text come the breaks after them. -/
def blockLines (isFolded : Bool) (indent : Nat) :
    (bound : Nat) → (firstBreak moreBreaks : List Char) → (afterBlank : Bool) →
      Reading (List Char × List Char × List Char)
  | 0, _, _, _ => malformed
  | bound + 1, firstBreak, moreBreaks, afterBlank => do
    match ← peek with
    | none => return ([], firstBreak, moreBreaks)
    | some c =>
      if (← here).column ≠ indent then return ([], firstBreak, moreBreaks)
      let joins := isFolded && !afterBlank && !isBlank c && firstBreak = ['\n']
      let before := if !joins then firstBreak else if moreBreaks.isEmpty then [' '] else []
      let line ← bounded (takeWhile (!isBreak ·))
      need 2
      let nextBreak ← takeBreak
      let (nextBreaks, _) ← bounded (emptyLines (some indent) · 0)
      let (text, last) ← blockLines isFolded indent bound nextBreak nextBreaks (isBlank c)
      return (before ++ moreBreaks ++ line ++ text, last)

def blockScalar (isFolded : Bool) : Reading Unit := do
  let line := (← here).line
  skip
  let (chomping, increment) ← blockHeader
  skipWhile isBlank
  if (← peek) = some '#' then skipLine
  if !endsLine (← peek) then malformed
  skipBreak
  let s ← get
  let given := increment.map (s.indents.head?.getD 0 + ·)
  let (breaks, deepest) ← bounded (emptyLines given · 0)
  let indent := given.getD (max deepest (max s.contentColumn 1))
  need 1
  let (text, firstBreak, moreBreaks) ← bounded (blockLines isFolded indent · [] breaks false)
  push (.scalar false (Text.ofChars (text ++ chomping.apply firstBreak moreBreaks))) line

end Reading
end Lox.Yaml
