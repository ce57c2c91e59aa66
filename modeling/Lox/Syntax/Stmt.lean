import Lox.Syntax.Expr

/-! Statements and declarations. -/
namespace Lox

structure Routine (β : Type) where
  name : Name
  params : List Name
  body : List β

inductive Stmt where
  | expr (e : Expr)
  | print (e : Expr)
  | var (name : Name) (value : Option Expr)
  | block (body : List Stmt)
  | ifThen (test : Expr) (yes : Stmt) (no : Option Stmt)
  | whileLoop (test : Expr) (body : Stmt)
  | function (decl : Routine Stmt)
  | returnValue (pos : Pos) (value : Option Expr)
  | breakLoop (pos : Pos)
  | classDecl (name : Name) (methods : List (Routine Stmt))

abbrev FunctionDecl := Routine Stmt

namespace Stmt

/-- A loop with clauses. The step runs after the body in the same scope, a missing test always holds, and the
start has a scope of its own around the loop. -/
def forLoop (start : Option Stmt) (test step : Option Expr) (body : Stmt) : Stmt :=
  let turn := match step with
    | some e => block [body, expr e]
    | none => body
  let repeated := whileLoop (test.getD (.literal (.bool true))) turn
  match start with
  | some s => block [s, repeated]
  | none => repeated

end Stmt
end Lox
