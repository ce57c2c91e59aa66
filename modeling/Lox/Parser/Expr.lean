import Lox.Parser.Basic

/-! Expressions in order of precedence: assignment binds least, then the levels of binary operators, then the
operators before an operand, then calls and properties. Every inner expression is parsed by `inner`. -/
namespace Lox.Parser

inductive Level where
  | or | and | equality | comparison | sum | product
deriving DecidableEq

def Level.all : List Level := [.or, .and, .equality, .comparison, .sum, .product]

def Level.node? (level : Level) (t : Token) : Option (Expr → Expr → Expr) :=
  match level, t.lexeme with
  | .or, .keyword .kwOr => some (.logical .or)
  | .and, .keyword .kwAnd => some (.logical .and)
  | .equality, .punct .equalEqual => some (.binary .equal t.pos)
  | .equality, .punct .bangEqual => some (.binary .notEqual t.pos)
  | .comparison, .punct .greater => some (.binary .greater t.pos)
  | .comparison, .punct .greaterEqual => some (.binary .greaterEqual t.pos)
  | .comparison, .punct .less => some (.binary .less t.pos)
  | .comparison, .punct .lessEqual => some (.binary .lessEqual t.pos)
  | .sum, .punct .plus => some (.binary .add t.pos)
  | .sum, .punct .minus => some (.binary .subtract t.pos)
  | .product, .punct .slash => some (.binary .divide t.pos)
  | .product, .punct .star => some (.binary .multiply t.pos)
  | _, _ => none

def atom? (t : Token) : Option Expr :=
  match t.lexeme with
  | .keyword .kwFalse => some (.literal (.bool false))
  | .keyword .kwTrue => some (.literal (.bool true))
  | .keyword .kwNil => some (.literal .nil)
  | .number _ value => some (.literal (.number value))
  | .string contents => some (.literal (.string contents))
  | .identifier text => some (.variable ⟨text, t.pos⟩)
  | _ => none

def primary (inner : Parser Expr) (inClass : Bool) : Parser Expr := do
  if let some e ← take? atom? then return e
  if let some pos ← accept? (.keyword .kwThis) then
    if !inClass then report .thisOutsideClass (.token ⟨.keyword .kwThis, pos⟩)
    return .this pos
  if let some _ ← accept? (.punct .leftParen) then
    let e ← inner
    let _ ← expect (.punct .rightParen) .expectParenAfterExpression
    return .group e
  fail .expectExpression

def suffixes (inner : Parser Expr) : (bound : Nat) → Expr → Parser Expr
  | 0, _ => exhausted
  | bound + 1, e => do
    if let some _ ← accept? (.punct .leftParen) then
      let args ← list .tooManyArguments inner bound
      let paren ← expect (.punct .rightParen) .expectParenAfterArguments
      suffixes inner bound (.call e args paren)
    else if let some _ ← accept? (.punct .dot) then
      let name ← expectName .expectPropertyName
      suffixes inner bound (.get e name)
    else return e

def prefixOp? (t : Token) : Option (UnaryOp × Pos) :=
  match t.lexeme with
  | .punct .bang => some (.not, t.pos)
  | .punct .minus => some (.negate, t.pos)
  | _ => none

def unary (operand : Parser Expr) : (bound : Nat) → Parser Expr
  | 0 => exhausted
  | bound + 1 => do
    match ← take? prefixOp? with
    | some (op, pos) => return .unary op pos (← unary operand bound)
    | none => operand

def operands (level : Level) (operand : Parser Expr) : (bound : Nat) → Expr → Parser Expr
  | 0, _ => exhausted
  | bound + 1, left => do
    match ← take? level.node? with
    | some node => operands level operand bound (node left (← operand))
    | none => return left

def binary (operand : Parser Expr) (bound : Nat) : List Level → Parser Expr
  | [] => operand
  | level :: levels => do
    let left ← binary operand bound levels
    operands level (binary operand bound levels) bound left

def operation (inner : Parser Expr) (inClass : Bool) (bound : Nat) : Parser Expr :=
  binary (unary (do suffixes inner bound (← primary inner inClass)) bound) bound Level.all

def assignment? (target value : Expr) : Option Expr :=
  match target with
  | .variable name => some (.assign name value)
  | .get object name => some (.set object name value)
  | _ => none

/-- An assignment, or any other expression. What cannot be assigned to is reported and stands for itself. -/
def assignment (inner : Parser Expr) (inClass : Bool) (bound : Nat) : Parser Expr := do
  let target ← operation inner inClass bound
  match ← accept? (.punct .equal) with
  | none => return target
  | some pos =>
    let value ← inner
    match assignment? target value with
    | some e => return e
    | none =>
      report .invalidAssignment (.token ⟨.punct .equal, pos⟩)
      return target

/-- An expression. The bound is enough if it is larger than the number of tokens left by at least two. -/
def expression (inClass : Bool) : (bound : Nat) → Parser Expr
  | 0 => exhausted
  | bound + 1 => assignment (expression inClass bound) inClass bound

end Lox.Parser
