import Lox.Text.Basic

/-! Tokens of documents: what structures a document, and the scalars in it. -/
namespace Lox.Yaml

inductive Token.Kind where
  | streamEnd
  | version (major minor : Nat)
  | tagHandle (handle expansion : Text)
  | documentStart
  | documentEnd
  | blockSequence
  | blockMapping
  | blockEnd
  | flowSequence
  | flowSequenceEnd
  | flowMapping
  | flowMappingEnd
  | blockEntry
  | flowEntry
  | key
  | value
  | aliasOf (name : Text)
  | anchor (name : Text)
  | tag (handle suffix : Text)
  | scalar (isPlain : Bool) (text : Text)
deriving DecidableEq

structure Token where
  kind : Token.Kind
  line : Nat

end Lox.Yaml
