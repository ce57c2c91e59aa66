import Lox.Text.Utf8

/-! The characters of a document. A document is read in blocks of bytes, each when a character of it is needed for
the first time; a character that no document may have spoils the block it stands in. -/
namespace Lox.Yaml

/-- A place in a document: the characters before it, its line, counted from one, and the characters before it on
that line. -/
structure Mark where
  index : Nat
  line : Nat
  column : Nat

def isBlank (c : Char) : Bool := c = ' ' || c = '\t'

def isBreak (c : Char) : Bool := c ∈ ['\r', '\n', '\u0085', '\u2028', '\u2029']

def endsLine (c : Option Char) : Bool := c.all isBreak

def endsWord (c : Option Char) : Bool := c.all fun c => isBlank c || isBreak c

def isNameChar (c : Char) : Bool := c.isAlphanum || c = '-' || c = '_'

def byteOrderMark : Char := '\ufeff'

def isAllowed (c : Nat) : Bool :=
  c = 9 || c = 10 || c = 13 || (0x20 ≤ c && c ≤ 0x7E) || c = 0x85 || (0xA0 ≤ c && c ≤ 0xD7FF) ||
    (0xE000 ≤ c && c ≤ 0xFFFD) || 0x10000 ≤ c

abbrev Block := Option (List Char)

namespace Block

def capacity : Nat := 512

def prepend (c : Char) : List Block → List Block
  | [] => [some [c]]
  | block :: blocks => block.map (c :: ·) :: blocks

/-- The blocks of a text after its first `skip` bytes, when the first block has room for `room` bytes. A character
that does not fit starts the next block. -/
def split : (skip room : Nat) → Text → List Block
  | _, _, [] => [some []]
  | skip + 1, room, _ :: bs => split skip room bs
  | 0, room, b :: bs =>
    match Text.codePoint? (b :: bs) with
    | none => [none]
    | some (c, n) =>
      if n ≤ room then
        if isAllowed c then prepend (Char.ofNat c) (split (n - 1) (room - n) bs) else [none]
      else if isAllowed c then some [] :: prepend (Char.ofNat c) (split (n - 1) (capacity - n) bs)
      else [some [], none]

end Block

structure Source where
  /-- The characters that have been read and are not passed yet. -/
  ready : List Char
  /-- The blocks that have not been read. -/
  blocks : List Block
  /-- How often the end of the text was read. Each time makes room for one look beyond it. -/
  ends : Nat
  mark : Mark
  /-- Whether a line break was passed, and nothing but blanks since. -/
  onFreshLine : Bool
  /-- Whether a byte order mark stood at the place where blocks were last read. -/
  readAtMark : Bool

namespace Source

/-- A text from its start. One byte order mark at the front is not part of it, but takes room in the first block. -/
def ofText (text : Text) : Source :=
  let bom := Text.ofChars [byteOrderMark]
  let blocks :=
    if bom.isPrefixOf text then Block.split 0 (Block.capacity - bom.length) (text.drop bom.length)
    else Block.split 0 Block.capacity text
  ⟨[], blocks, 0, ⟨0, 1, 0⟩, false, false⟩

def readBlocks (n : Nat) : List Char → List Block → Option (List Char × List Block × Bool)
  | ready, [] => some (ready, [], true)
  | _, none :: _ => none
  | ready, some cs :: blocks =>
    let ready := ready ++ cs
    if n ≤ ready.length then some (ready, blocks, false) else readBlocks n ready blocks

/-- Makes `n` characters ready, as far as the text has them. Fails if a block is spoilt. -/
def need? (n : Nat) (s : Source) : Option Source :=
  if n ≤ (s.ready.take n).length + s.ends then some s
  else do
    let (ready, blocks, ended) ← readBlocks n s.ready s.blocks
    return { s with
      ready, blocks
      ends := if ended then s.ends + 1 else s.ends
      readAtMark := ready.head? = some byteOrderMark }

def skip (s : Source) : Source :=
  { s with
    ready := s.ready.drop 1
    mark := ⟨s.mark.index + 1, s.mark.line, s.mark.column + 1⟩
    onFreshLine := s.onFreshLine && s.ready.head?.all isBlank }

def nextLine (n : Nat) (s : Source) : Source :=
  { s with
    ready := s.ready.drop n
    mark := ⟨s.mark.index + n, s.mark.line + 1, 0⟩
    onFreshLine := true }

/-- Passes a line break, if there is one, and gives its text. All but the separators of lines and paragraphs
count as the same break, and so do a carriage return and a line feed together. -/
def takeBreak (s : Source) : List Char × Source :=
  match s.ready with
  | '\r' :: '\n' :: _ => (['\n'], s.nextLine 2)
  | c :: _ =>
    if isBreak c then ([if c = '\u2028' || c = '\u2029' then c else '\n'], s.nextLine 1) else ([], s)
  | [] => ([], s)

def endLine (s : Source) : Source :=
  if s.mark.column = 0 then s else { s with mark := ⟨s.mark.index, s.mark.line + 1, 0⟩ }

end Source
end Lox.Yaml
