import Lox.Command.Report

/-! Declarations of the nodes of syntax trees, written out as source text from a table of nodes and fields. -/
namespace Lox

structure NodeDecl where
  name : String
  fields : List (String × String)

structure NodeSet where
  name : String
  nodes : List NodeDecl

namespace NodeSet

def statements : NodeSet where
  name := "Stmt"
  nodes := [
    ⟨"Block", [("stmts", "[]stmt")]⟩,
    ⟨"Break", [("keyword", "*token")]⟩,
    ⟨"Class", [("name", "*token"), ("methods", "[]*fnStmt")]⟩,
    ⟨"Expr", [("expression", "expr")]⟩,
    ⟨"Fn", [("name", "*token"), ("params", "[]*token"), ("body", "[]stmt")]⟩,
    ⟨"If", [("keyword", "*token"), ("condition", "expr"), ("thenBranch", "stmt"), ("elseBranch", "stmt")]⟩,
    ⟨"Print", [("keyword", "*token"), ("expression", "expr")]⟩,
    ⟨"Return", [("keyword", "*token"), ("value", "expr")]⟩,
    ⟨"Var", [("name", "*token"), ("initializer", "expr")]⟩,
    ⟨"While", [("keyword", "*token"), ("condition", "expr"), ("body", "stmt")]⟩]

def expressions : NodeSet where
  name := "Expr"
  nodes := [
    ⟨"Assign", [("name", "*token"), ("value", "expr")]⟩,
    ⟨"Binary", [("left", "expr"), ("operator", "*token"), ("right", "expr")]⟩,
    ⟨"Call", [("callee", "expr"), ("paren", "*token"), ("arguments", "[]expr")]⟩,
    ⟨"Get", [("object", "expr"), ("name", "*token")]⟩,
    ⟨"Grouping", [("expression", "expr")]⟩,
    ⟨"Literal", [("value", "loxValue")]⟩,
    ⟨"Logical", [("left", "expr"), ("operator", "*token"), ("right", "expr")]⟩,
    ⟨"Set", [("object", "expr"), ("name", "*token"), ("value", "expr")]⟩,
    ⟨"This", [("keyword", "*token")]⟩,
    ⟨"Unary", [("operator", "*token"), ("right", "expr")]⟩,
    ⟨"Variable", [("name", "*token")]⟩]

def decapitalized (name : String) : String :=
  match name.toList with
  | [] => ""
  | c :: cs => String.ofList (c.toLower :: cs)

def fieldLines (fields : List (String × String)) : String :=
  let width := fields.foldl (fun w f => max w f.1.length) 0
  String.join (fields.map fun f =>
    "\t" ++ f.1 ++ String.ofList (List.replicate (width + 1 - f.1.length) ' ') ++ f.2 ++ "\n")

def nodeText (set : NodeSet) (node : NodeDecl) : String :=
  let name := decapitalized node.name ++ set.name
  "type " ++ name ++ " struct \x7b\n" ++ fieldLines node.fields ++ "\x7d\n\n" ++
    "func (*" ++ name ++ ") " ++ decapitalized set.name ++ "Node() \x7b\x7d\n"

def toText (set : NodeSet) : Text :=
  let name := decapitalized set.name
  let interface := "type " ++ name ++ " interface \x7b\n\t" ++ name ++ "Node()\n\x7d\n"
  let header := "// Code generated by cmd/astgen. DO NOT EDIT.\n\npackage internal\n"
  Text.ofString ("\n".intercalate (header :: interface :: set.nodes.map set.nodeText))

def ofName? (name : Text) : Option NodeSet :=
  [statements, expressions].find? fun set => Text.ofString set.name == name

def run (args : List Text) : Report :=
  match args with
  | [name] =>
    match ofName? name with
    | some set => .ofStreams 0 (.out set.toText)
    | none => .fatal ("unknown node set " ++ name.quoted)
  | _ => .ofStreams 2 (.err "Usage: astgen Expr|Stmt\n")

end NodeSet
end Lox
