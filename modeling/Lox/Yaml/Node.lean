import Lox.Text.Basic

/-! Documents as trees: scalars, sequences and mappings, each with the line on which it starts and a tag if one was
written, and aliases of nodes that have been given a name. -/
namespace Lox.Yaml

inductive Node where
  | scalar (line : Nat) (tag : Option Text) (isPlain : Bool) (text : Text)
  | sequence (line : Nat) (tag : Option Text) (items : List Node)
  | mapping (line : Nat) (tag : Option Text) (entries : List (Node × Node))
  /-- Another place of a node that is known by its number. An alias may stand inside of the node it means. -/
  | aliasOf (line : Nat) (name : Text) (number : Nat)

namespace Node

def missing (line : Nat) : Node := .scalar line none true []

def line : Node → Nat
  | scalar line _ _ _ => line
  | sequence line _ _ => line
  | mapping line _ _ => line
  | aliasOf line _ _ => line

end Node

structure Document where
  root : Node
  named : List (Nat × Node) := []

def Document.target (d : Document) (node : Node) : Node :=
  match node with
  | .aliasOf line _ number => (d.named.lookup number).getD (.missing line)
  | _ => node

end Lox.Yaml
