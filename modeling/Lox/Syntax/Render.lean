import Lox.Number.Layout
import Lox.Syntax.Stmt

/-! Trees as text, with each operator before its operands and in parentheses, or after them. -/
namespace Lox

inductive Order where
  | operatorFirst
  | operatorLast
deriving DecidableEq

namespace Order

def apply (order : Order) (name : Text) (operands : List Text) : Text :=
  match order with
  | operatorFirst => "(" ++ Text.join " " (name :: operands) ++ ")"
  | operatorLast => Text.join " " (operands ++ [name])

/-- Parentheses around an operand show only if operators come first. -/
def group (order : Order) (inner : Text) : Text :=
  match order with
  | operatorFirst => order.apply "group" [inner]
  | operatorLast => inner

end Order

def Literal.render : Literal → Text
  | .nil => "nil"
  | .bool b => if b then "true" else "false"
  | .number x => x.toText
  | .string s => "\"" ++ s ++ "\""

mutual

def Expr.render (order : Order) : Expr → Text
  | .literal value => value.render
  | .group inner => order.group (inner.render order)
  | .unary op _ operand => order.apply op.spelling [operand.render order]
  | .binary op _ left right => order.apply op.spelling [left.render order, right.render order]
  | .logical op left right => order.apply op.spelling [left.render order, right.render order]
  | .variable name => name.text
  | .assign name value => order.apply "=" [name.text, value.render order]
  | .call callee args _ => order.apply "call" (callee.render order :: Expr.renderAll order args)
  | .get object name => order.apply "." [object.render order, name.text]
  | .set object name value =>
    order.apply "=" [order.apply "." [object.render order, name.text], value.render order]
  | .this _ => "this"

def Expr.renderAll (order : Order) : List Expr → List Text
  | [] => []
  | e :: es => e.render order :: Expr.renderAll order es

end

def Expr.renderOption (order : Order) : Option Expr → List Text
  | none => []
  | some e => [e.render order]

mutual

def Stmt.render (order : Order) : Stmt → Text
  | .expr e => e.render order
  | .print e => order.apply "print" [e.render order]
  | .var name value => order.apply "var" (name.text :: Expr.renderOption order value)
  | .block body => order.apply "block" (Stmt.renderAll order body)
  | .ifThen test yes no =>
    order.apply "if" (test.render order :: yes.render order :: Stmt.renderOption order no)
  | .whileLoop test body => order.apply "while" [test.render order, body.render order]
  | .function decl => Stmt.renderFunction order decl
  | .returnValue _ value => order.apply "return" (Expr.renderOption order value)
  | .breakLoop _ => order.apply "break" []
  | .classDecl name methods => order.apply "class" (name.text :: Stmt.renderFunctions order methods)

def Stmt.renderAll (order : Order) : List Stmt → List Text
  | [] => []
  | s :: ss => s.render order :: Stmt.renderAll order ss

def Stmt.renderOption (order : Order) : Option Stmt → List Text
  | none => []
  | some s => [s.render order]

def Stmt.renderFunction (order : Order) : FunctionDecl → Text
  | ⟨name, params, body⟩ =>
    order.apply "fun"
      (name.text :: order.apply "params" (params.map Name.text) :: Stmt.renderAll order body)

def Stmt.renderFunctions (order : Order) : List FunctionDecl → List Text
  | [] => []
  | f :: fs => Stmt.renderFunction order f :: Stmt.renderFunctions order fs

end

end Lox
