import Lox.Yaml.Node
import Lox.Yaml.Stream.Next

/-! The first document of a text as a tree. What comes after it does not count, as far as it was not read ahead. -/
namespace Lox.Yaml

structure Names where
  /-- The numbers of nodes by their names, the newest first. -/
  anchors : List (Text × Nat) := []
  /-- The finished nodes by their numbers. -/
  nodes : List (Nat × Node) := []
  /-- The handles of tags with what they stand for. -/
  handles : List (Text × Text) := []

abbrev Building (α : Type) := StateT Names Reading α

def standardTag : Text := "tag:yaml.org,2002:"

def defaultHandles : List (Text × Text) := [("!", "!"), ("!!", standardTag)]

def shownTag? (tag : Text) : Option Text :=
  -- tags of the standard are short, and a mark alone is none
  if tag = Text.ofString "!" then none
  else if standardTag.isPrefixOf tag then some ("!!" ++ tag.drop standardTag.length)
  else some tag

namespace Building

variable {α : Type}

def malformed : Building α := failure

def next : Building Token := Reading.nextToken

def drop : Building Unit := Reading.dropToken

def nextIn (kinds : List Token.Kind) : Building Bool := return kinds.contains (← next).kind

def accept (kind : Token.Kind) : Building Bool := do
  if (← next).kind = kind then
    drop
    return true
  else return false

/-- The properties of a node: its number, which is that of its first token, the line it starts on, its name, and
its tag. -/
structure Properties where
  number : Nat
  line : Nat
  anchor : Option Text := none
  tag : Option Text := none

def expand (handle suffix : Text) : Building Text := do
  if handle.isEmpty then return suffix
  else match (← get).handles.lookup handle with
    | some expansion => return expansion ++ suffix
    | none => malformed

def anchor? : Building (Option Text) := do
  match (← next).kind with
  | .anchor name =>
    drop
    return some name
  | _ => return none

def tag? : Building (Option (Text × Text)) := do
  match (← next).kind with
  | .tag handle suffix =>
    drop
    return some (handle, suffix)
  | _ => return none

def properties : Building Properties := do
  let number := (← getThe Stream).taken
  let line := (← next).line
  let first ← anchor?
  let tag ← tag?
  let second ← if first.isNone && tag.isSome then anchor? else pure none
  let expanded ← tag.mapM fun (handle, suffix) => expand handle suffix
  return ⟨number, line, first.or second, expanded⟩

def declare (p : Properties) : Building Unit :=
  p.anchor.forM fun name => modify fun n => { n with anchors := (name, p.number) :: n.anchors }

def finish (p : Properties) (node : Node) : Building Node := do
  if p.anchor.isSome then modify fun n => { n with nodes := (p.number, node) :: n.nodes }
  return node

def scalar (p : Properties) (isPlain : Bool) (text : Text) : Building Node := do
  declare p
  finish p (.scalar p.line (p.tag.bind shownTag?) isPlain text)

/-- A collection with its properties and contents. The contents may use its name already. -/
def collection (p : Properties) (make : Nat → Option Text → List α → Node) (contents : Building (List α)) :
    Building Node := do
  declare p
  finish p (make p.line (p.tag.bind shownTag?) (← contents))

mutual

/-- A node. In a block, blocks can start; the items of a sequence may stand at the column of the mapping around
it if `inMapping`. -/
def node : (bound : Nat) → (inBlock inMapping : Bool) → Building Node
  | 0, _, _ => malformed
  | bound + 1, inBlock, inMapping => do
    let t ← next
    if let .aliasOf name := t.kind then
      drop
      match (← get).anchors.lookup name with
      | some number => return .aliasOf t.line name number
      | none => malformed
    else
      let p ← properties
      match (← next).kind with
      | .scalar isPlain text =>
        drop
        scalar p isPlain text
      | .flowSequence =>
        collection p .sequence do
          drop
          flowItems bound true
      | .flowMapping =>
        collection p .mapping do
          drop
          flowEntries bound true
      | kind =>
        if kind = .blockEntry && inMapping then collection p .sequence (looseItems bound)
        else if kind = .blockSequence && inBlock then
          collection p .sequence do
            drop
            blockItems bound
        else if kind = .blockMapping && inBlock then
          collection p .mapping do
            drop
            blockEntries bound
        else if p.anchor.isSome || p.tag.isSome then scalar p true []
        else malformed

def blockItems : (bound : Nat) → Building (List Node)
  | 0 => malformed
  | bound + 1 => do
    let line := (← next).line
    if ← accept .blockEntry then
      let item ←
        if ← nextIn [.blockEntry, .blockEnd] then pure (.missing line)
        else node bound true false
      return item :: (← blockItems bound)
    else if ← accept .blockEnd then return []
    else malformed

/-- The items of a sequence that stands at the column of the mapping around it. -/
def looseItems : (bound : Nat) → Building (List Node)
  | 0 => malformed
  | bound + 1 => do
    let line := (← next).line
    if ← accept .blockEntry then
      let item ←
        if ← nextIn [.blockEntry, .key, .value, .blockEnd] then pure (.missing line)
        else node bound true false
      return item :: (← looseItems bound)
    else return []

def blockPart : (bound : Nat) → (line : Nat) → Building Node
  | 0, _ => malformed
  | bound + 1, line => do
    if ← nextIn [.key, .value, .blockEnd] then return .missing line
    else node bound true true

def blockEntries : (bound : Nat) → Building (List (Node × Node))
  | 0 => malformed
  | bound + 1 => do
    let line := (← next).line
    if ← accept .key then
      let key ← blockPart bound line
      let line := (← next).line
      let value ← if ← accept .value then blockPart bound line else pure (.missing line)
      return (key, value) :: (← blockEntries bound)
    else if ← accept .blockEnd then return []
    else malformed

def flowValue : (bound : Nat) → (ending : Token.Kind) → Building Node
  | 0, _ => malformed
  | bound + 1, ending => do
    let line := (← next).line
    if ← accept .value then
      let line := (← next).line
      if ← nextIn [.flowEntry, ending] then return .missing line else node bound false false
    else return .missing line

/-- A single entry as an item in brackets, behind its mark. If its key is missing, the token there is passed. -/
def flowPair : (bound : Nat) → (line : Nat) → Building Node
  | 0, _ => malformed
  | bound + 1, line => do
    let here := (← next).line
    let key ←
      if ← nextIn [.value, .flowEntry, .flowSequenceEnd] then do
        drop
        pure (.missing here)
      else node bound false false
    return .mapping line none [(key, ← flowValue bound .flowSequenceEnd)]

def flowItems : (bound : Nat) → (isFirst : Bool) → Building (List Node)
  | 0, _ => malformed
  | bound + 1, isFirst => do
    if ← accept .flowSequenceEnd then return []
    if !isFirst then
      if !(← accept .flowEntry) then malformed
    let line := (← next).line
    if ← accept .flowSequenceEnd then return []
    let item ← if ← accept .key then flowPair bound line else node bound false false
    return item :: (← flowItems bound false)

def flowEntries : (bound : Nat) → (isFirst : Bool) → Building (List (Node × Node))
  | 0, _ => malformed
  | bound + 1, isFirst => do
    if ← accept .flowMappingEnd then return []
    if !isFirst then
      if !(← accept .flowEntry) then malformed
    if ← accept .flowMappingEnd then return []
    let entry ←
      if ← accept .key then do
        let line := (← next).line
        let key ←
          if ← nextIn [.value, .flowEntry, .flowMappingEnd] then pure (.missing line)
          else node bound false false
        pure (key, ← flowValue bound .flowMappingEnd)
      else do
        let key ← node bound false false
        pure (key, .missing (← next).line)
    return entry :: (← flowEntries bound false)

end

/-- The directives before a document. Only version 1.1 is known, and nothing may be declared twice. -/
def directives : (bound : Nat) → (hasVersion : Bool) → Building Unit
  | 0, _ => malformed
  | bound + 1, hasVersion => do
    match (← next).kind with
    | .version major minor =>
      if hasVersion || major ≠ 1 || minor ≠ 1 then malformed
      drop
      directives bound true
    | .tagHandle handle expansion =>
      if ((← get).handles.lookup handle).isSome then malformed
      modify fun n => { n with handles := (handle, expansion) :: n.handles }
      drop
      directives bound hasVersion
    | _ => modify fun n => { n with handles := n.handles ++ defaultHandles }

/-- The tree of the first document, which need not be started by a mark unless it has directives. -/
def root : Building Node := do
  let bound := (← getThe Stream).bound
  let first ← next
  match first.kind with
  | .streamEnd => return .missing first.line
  | kind =>
    let isMarked := match kind with
      | .version _ _ | .tagHandle _ _ | .documentStart => true
      | _ => false
    directives bound false
    if isMarked then
      if !(← accept .documentStart) then malformed
    let t ← next
    let isEmpty := match t.kind with
      | .version _ _ | .tagHandle _ _ | .documentStart | .documentEnd | .streamEnd => isMarked
      | _ => false
    let node ← if isEmpty then pure (.missing t.line) else node bound true false
    let _ ← next
    return node

end Building

def read? (text : Text) : Option Document :=
  ((Building.root.run {}).run (.ofText text)).map fun ((root, names), _) => ⟨root, names.nodes⟩

end Lox.Yaml
