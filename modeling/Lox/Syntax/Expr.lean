import Lox.Token.Basic

/-! Expressions. A node keeps a place only where running it can fail or where its own keyword can be wrong. -/
namespace Lox

structure Name where
  text : Text
  pos : Pos
deriving DecidableEq

inductive Literal where
  | nil
  | bool (b : Bool)
  | number (x : Number)
  | string (s : Text)
deriving DecidableEq

inductive UnaryOp where
  | not | negate
deriving DecidableEq

inductive BinaryOp where
  | equal | notEqual
  | greater | greaterEqual | less | lessEqual
  | add | subtract
  | multiply | divide
deriving DecidableEq

inductive LogicalOp where
  | and | or
deriving DecidableEq

namespace UnaryOp

def punct : UnaryOp → Punct
  | not => .bang
  | negate => .minus

def spelling (op : UnaryOp) : String := op.punct.spelling

end UnaryOp

namespace BinaryOp

def punct : BinaryOp → Punct
  | equal => .equalEqual
  | notEqual => .bangEqual
  | greater => .greater
  | greaterEqual => .greaterEqual
  | less => .less
  | lessEqual => .lessEqual
  | add => .plus
  | subtract => .minus
  | multiply => .star
  | divide => .slash

def spelling (op : BinaryOp) : String := op.punct.spelling

end BinaryOp

namespace LogicalOp

def keyword : LogicalOp → Keyword
  | and => .kwAnd
  | or => .kwOr

def spelling (op : LogicalOp) : String := op.keyword.spelling

end LogicalOp

inductive Expr where
  | literal (value : Literal)
  | group (inner : Expr)
  | unary (op : UnaryOp) (pos : Pos) (operand : Expr)
  | binary (op : BinaryOp) (pos : Pos) (left right : Expr)
  | logical (op : LogicalOp) (left right : Expr)
  | variable (name : Name)
  | assign (name : Name) (value : Expr)
  | call (callee : Expr) (args : List Expr) (paren : Pos)
  | get (object : Expr) (name : Name)
  | set (object : Expr) (name : Name) (value : Expr)
  | this (pos : Pos)

end Lox
