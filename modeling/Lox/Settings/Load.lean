import Lox.Settings
import Lox.Yaml.Document
import Lox.Yaml.Scalar

/-! Settings from a document: each key sets a field on top of the defaults. What does not fit is reported, and the
other fields are set all the same. -/
namespace Lox.Settings

open Lox.Yaml

inductive Problem where
  | unknownField (line : Nat) (name : Text)
  | repeatedField (line : Nat) (name : Text)
  | duplicateKey (line : Nat) (key : Text) (first : Nat)
  | mistyped (line : Nat) (tag value : Text) (type : String)

namespace Problem

/-- A value in a message: a long one is cut short. Behind the tags of collections it stands as it is. -/
def excerpt (tag value : Text) : Text :=
  if ["!!seq", "!!map"].any (Text.ofString · == tag) then value
  else " \x60" ++ (if 10 < value.length then value.take 7 ++ "..." else value) ++ "\x60"

def toText : Problem → Text
  | unknownField line name =>
    "line " ++ Text.ofNat line ++ ": field " ++ name ++ " not found in type internal.Config"
  | repeatedField line name =>
    "line " ++ Text.ofNat line ++ ": field " ++ name ++ " already set in type internal.Config"
  | duplicateKey line key first =>
    "line " ++ Text.ofNat line ++ ": mapping key " ++ key.quoted ++ " already defined at line " ++
      Text.ofNat first
  | mistyped line tag value type =>
    "line " ++ Text.ofNat line ++ ": cannot unmarshal " ++ tag ++ excerpt tag value ++ " into " ++ type

end Problem

structure Loaded where
  settings : Settings := {}
  /-- What did not fit so far, in order. -/
  problems : List Problem := []

abbrev Loading (α : Type) := StateT Loaded Option α

namespace Loading

variable {α : Type}

def malformed : Loading α := failure

def report (p : Problem) : Loading Unit := modify fun l => { l with problems := l.problems ++ [p] }

def keyText : Node → Text
  | .scalar _ _ _ text => text
  | .aliasOf _ name _ => name
  | _ => []

def sameKey (a b : Node) : Bool :=
  let kind : Node → Nat
    | .scalar _ _ _ _ => 0
    | .sequence _ _ _ => 1
    | .mapping _ _ _ => 2
    | .aliasOf _ _ _ => 3
  kind a = kind b && keyText a = keyText b

def duplicates : List (Node × Node) → List Problem
  | [] => []
  | (key, _) :: rest =>
    (rest.filter fun e => sameKey key e.1).map
      (fun e => .duplicateKey e.1.line (keyText e.1) key.line) ++ duplicates rest

def distinctKeys (entries : List (Node × Node)) : Loading Bool := do
  let problems := duplicates entries
  problems.forM report
  return problems.isEmpty

/-- The value of a node where a scalar of some type is wanted. Null gives nothing, and what does not fit is
reported. -/
def decode? (type : String) (f : Scalar → Text → Option α) (d : Document) (node : Node) :
    Loading (Option α) := do
  match d.target node with
  | .scalar line tag isPlain text =>
    match Scalar.of? tag isPlain text with
    | none => malformed
    | some .null => return none
    | some s =>
      let value := f s text
      if value.isNone then report (.mistyped line (Scalar.shownTag tag isPlain text) text type)
      return value
  | .sequence line tag _ =>
    report (.mistyped line (tag.getD "!!seq") [] type)
    return none
  | .mapping line tag entries =>
    if ← distinctKeys entries then report (.mistyped line (tag.getD "!!map") [] type)
    return none
  | .aliasOf _ _ _ => return none

def text? : Document → Node → Loading (Option Text) :=
  decode? "string" fun s text =>
    match s with
    | .string t => some t
    | _ => some text

def bool? : Document → Node → Loading (Option Bool) :=
  -- a truth value may also be a yes or a no
  decode? "bool" fun s _ =>
    match s with
    | .bool b => some b
    | .string t =>
      if ["y", "Y", "yes", "Yes", "YES", "on", "On", "ON"].any (Text.ofString · == t) then some true
      else if ["n", "N", "no", "No", "NO", "off", "Off", "OFF"].any (Text.ofString · == t) then some false
      else none
    | _ => none

/-- A number without its fraction. Numbers beyond 64 bits all become the least integer. -/
def truncate (x : Number) : Int :=
  let size : Int := if x.isFinite then ((x.numerator / x.denominator : Nat) : Int) else Text.maxNatural
  let n := if x.isNegative then -size else size
  if Text.minInteger ≤ n ∧ n ≤ Text.maxInteger then n else Text.minInteger

/-- An integer may also be a number with a fraction, which is left out, up to the 63rd power of two. -/
def int? : Document → Node → Loading (Option Int) :=
  decode? "int" fun s _ =>
    match s with
    | .int n => if n ≤ Text.maxInteger then some n else none
    | .float x => if x.lessEqual ⟨0x43E0000000000000⟩ then some (truncate x) else none
    | _ => none

/-- Where no scalar fits, only null does. -/
def nothing? : Document → Node → Loading (Option Unit) := decode? "internal.Config" fun _ _ => none

def store (value? : Option α) (set : Settings → α → Settings) : Loading Unit :=
  value?.forM fun a => modify fun l => { l with settings := set l.settings a }

inductive Field where
  | logLevel
  | color
  | maxCallDepth
  | prompt
  | historyFile
deriving DecidableEq

def Field.named : List (String × Field) :=
  [("log_level", logLevel), ("color", color), ("max_call_depth", maxCallDepth), ("prompt", prompt),
    ("history_file", historyFile)]

def setField (d : Document) (node : Node) : Field → Loading Unit
  | .logLevel => do store (← text? d node) fun s t => { s with logLevel := t }
  | .color => do store (← bool? d node) fun s b => { s with color := b }
  | .maxCallDepth => do store (← int? d node) fun s n => { s with maxCallDepth := n }
  | .prompt => do store (← text? d node) fun s t => { s with prompt := t }
  | .historyFile => do store (← text? d node) fun s t => { s with historyFile := t }

def isMergeKey : Node → Bool
  | .scalar _ tag isPlain text => text = Scalar.mergeKey && Scalar.shownTag tag isPlain text = Text.ofString "!!merge"
  | _ => false

/-- Sets fields in the order of the entries, each of them once. When entries are merged, `taken` has the names that
are passed over, to which theirs are added. -/
def setFields (d : Document) :
    List (Node × Node) → (fields : List Field) → (taken : Option (List Text)) → Loading (Option (List Text))
  | [], _, taken => return taken
  | (key, node) :: rest, fields, taken => do
    if isMergeKey key then setFields d rest fields taken
    else match ← text? d key with
      | none => setFields d rest fields taken
      | some name =>
        if taken.any (·.contains name) then setFields d rest fields taken
        else
          let taken := taken.map (name :: ·)
          match Field.named.find? fun f => Text.ofString f.1 == name with
          | none =>
            report (.unknownField key.line name)
            setFields d rest fields taken
          | some (_, field) =>
            if field ∈ fields then
              report (.repeatedField key.line name)
              setFields d rest fields taken
            else
              setField d node field
              setFields d rest (field :: fields) taken

def names (d : Document) : List (Node × Node) → Loading (List Text)
  | [] => return []
  | (key, _) :: rest => do
    match d.target key with
    | .scalar _ tag isPlain text =>
      match Scalar.of? tag isPlain text with
      | none => malformed
      | some (.string name) => return name :: (← names d rest)
      | some _ => names d rest
    | .mapping _ _ entries => if ← distinctKeys entries then malformed else names d rest
    | _ => malformed

def merged? (d : Document) (node : Node) : Option (List (List (Node × Node))) :=
  let entries? (node : Node) : Option (List (Node × Node)) :=
    match d.target node with
    | .mapping _ _ entries => some entries
    | _ => none
  match node with
  | .sequence _ _ items => items.mapM entries?
  | _ => (entries? node).map ([·])

/-- Sets fields from the entries of a mapping, and then from the mappings that are merged into it as far as their
names are not taken. A mapping with keys that are written alike sets nothing. No mapping can be merged into itself;
it would not end within any depth. -/
def setAll (d : Document) : (depth : Nat) → (taken : Option (List Text)) → List (Node × Node) →
    Loading (Option (List Text))
  | 0, _, _ => malformed
  | depth + 1, taken, entries => do
    if ← distinctKeys entries then
      let taken ← setFields d entries [] taken
      match (entries.filter (isMergeKey ·.1)).getLast? with
      | none => return taken
      | some (_, node) =>
        let own ← if taken.isSome then pure taken else some <$> names d entries
        match merged? d node with
        | none => malformed
        | some mappings =>
          let inner ← mappings.foldlM (setAll d depth) own
          return if taken.isSome then inner else none
    else return taken

def document (d : Document) (depth : Nat) : Loading Unit := do
  match d.root with
  | .mapping _ _ entries =>
    let _ ← setAll d depth none entries
  | node =>
    let _ ← nothing? d node

end Loading

inductive LoadError where
  | malformed
  | mistyped (problems : List Problem)
  | invalid (e : SettingsError)

/-- What is wrong with a malformed document is not known. -/
def LoadError.message : LoadError → Text
  | malformed => "yaml: unknown problem parsing YAML content"
  | mistyped problems =>
    "yaml: unmarshal errors:" ++ problems.flatMap fun p => Text.ofString "\n  " ++ p.toText
  | invalid e => e.message

/-- The settings of a text. What was set is kept when something does not fit. -/
def ofText (text : Text) : Settings × Option LoadError :=
  match read? text >>= fun d => (Loading.document d (text.length + 1)).run {} with
  | none => ({}, some .malformed)
  | some ((), ⟨s, []⟩) => (s, s.error?.map .invalid)
  | some ((), ⟨s, problems⟩) => (s, some (.mistyped problems))

end Lox.Settings
