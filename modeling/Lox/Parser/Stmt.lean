import Lox.Parser.Expr

/-! Statements and declarations. The statements inside a statement are parsed by `statement`, the declarations
inside a block by `declaration`; the two are tied together at the end. -/
namespace Lox.Parser

structure Inner where
  bound : Nat
  statement : Context → Parser Stmt
  declaration : Context → Parser (Option Stmt)

namespace Inner

def expression (p : Inner) (c : Context) : Parser Expr := Parser.expression c.inClass p.bound

def declarations (p : Inner) (c : Context) : (bound : Nat) → Parser (List Stmt)
  | 0 => exhausted
  | bound + 1 => do
    if (← nextIs (.punct .rightBrace)) || (← atEnd) then return []
    let first ← p.declaration c
    let others ← p.declarations c bound
    return first.toList ++ others

def block (p : Inner) (c : Context) : Parser (List Stmt) := do
  let body ← p.declarations c p.bound
  let _ ← expect (.punct .rightBrace) .expectBraceAfterBlock
  return body

def function (p : Inner) (c : Context) (noName : SyntaxError.Cause) : Parser FunctionDecl := do
  let name ← expectName noName
  let _ ← expect (.punct .leftParen) .expectParenAfterName
  let params ← list .tooManyParameters (expectName .expectParameterName) p.bound
  let _ ← expect (.punct .rightParen) .expectParenAfterParameters
  let _ ← expect (.punct .leftBrace) .expectBraceBeforeBody
  let body ← p.block c.enterFunction
  return ⟨name, params, body⟩

def methods (p : Inner) (c : Context) : (bound : Nat) → Parser (List FunctionDecl)
  | 0 => exhausted
  | bound + 1 => do
    if (← nextIs (.punct .rightBrace)) || (← atEnd) then return []
    let first ← p.function c .expectMethodName
    return first :: (← p.methods c bound)

def classDecl (p : Inner) (c : Context) : Parser Stmt := do
  let name ← expectName .expectClassName
  let _ ← expect (.punct .leftBrace) .expectBraceBeforeClassBody
  let methods ← p.methods c.enterClass p.bound
  let _ ← expect (.punct .rightBrace) .expectBraceAfterClassBody
  return .classDecl name methods

def varDecl (p : Inner) (c : Context) : Parser Stmt := do
  let name ← expectName .expectVariableName
  let value ← match ← accept? (.punct .equal) with
    | some _ => some <$> p.expression c
    | none => pure none
  let _ ← expect (.punct .semicolon) .expectSemicolonAfterVariable
  return .var name value

def exprStmt (p : Inner) (c : Context) : Parser Stmt := do
  let e ← p.expression c
  let _ ← expect (.punct .semicolon) .expectSemicolonAfterExpression
  return .expr e

def expressionUnless (p : Inner) (c : Context) (ending : Lexeme) : Parser (Option Expr) := do
  if ← nextIs ending then return none else some <$> p.expression c

def forStmt (p : Inner) (c : Context) : Parser Stmt := do
  let _ ← expect (.punct .leftParen) .expectParenAfterFor
  let start ← match ← accept? (.punct .semicolon) with
    | some _ => pure none
    | none => match ← accept? (.keyword .kwVar) with
      | some _ => some <$> p.varDecl c
      | none => some <$> p.exprStmt c
  let test ← p.expressionUnless c (.punct .semicolon)
  let _ ← expect (.punct .semicolon) .expectSemicolonAfterCondition
  let step ← p.expressionUnless c (.punct .rightParen)
  let _ ← expect (.punct .rightParen) .expectParenAfterClauses
  let body ← p.statement c.enterLoop
  return .forLoop start test step body

def ifStmt (p : Inner) (c : Context) : Parser Stmt := do
  -- an else belongs to the nearest conditional
  let _ ← expect (.punct .leftParen) .expectParenAfterIf
  let test ← p.expression c
  let _ ← expect (.punct .rightParen) .expectParenAfterCondition
  let yes ← p.statement c
  let no ← match ← accept? (.keyword .kwElse) with
    | some _ => some <$> p.statement c
    | none => pure none
  return .ifThen test yes no

def printStmt (p : Inner) (c : Context) : Parser Stmt := do
  let e ← p.expression c
  let _ ← expect (.punct .semicolon) .expectSemicolonAfterValue
  return .print e

def returnStmt (p : Inner) (c : Context) (pos : Pos) : Parser Stmt := do
  if !c.inFunction then report .returnOutsideFunction (.token ⟨.keyword .kwReturn, pos⟩)
  let value ← p.expressionUnless c (.punct .semicolon)
  let _ ← expect (.punct .semicolon) .expectSemicolonAfterReturn
  return .returnValue pos value

def breakStmt (c : Context) (pos : Pos) : Parser Stmt := do
  if !c.inLoop then report .breakOutsideLoop (.token ⟨.keyword .kwBreak, pos⟩)
  let _ ← expect (.punct .semicolon) .expectSemicolonAfterBreak
  return .breakLoop pos

def whileStmt (p : Inner) (c : Context) : Parser Stmt := do
  let _ ← expect (.punct .leftParen) .expectParenAfterWhile
  let test ← p.expression c
  let _ ← expect (.punct .rightParen) .expectParenAfterCondition
  let body ← p.statement c.enterLoop
  return .whileLoop test body

def anyStatement (p : Inner) (c : Context) : Parser Stmt := do
  if let some _ ← accept? (.keyword .kwFor) then p.forStmt c
  else if let some _ ← accept? (.keyword .kwIf) then p.ifStmt c
  else if let some _ ← accept? (.keyword .kwPrint) then p.printStmt c
  else if let some pos ← accept? (.keyword .kwReturn) then p.returnStmt c pos
  else if let some pos ← accept? (.keyword .kwBreak) then breakStmt c pos
  else if let some _ ← accept? (.keyword .kwWhile) then p.whileStmt c
  else if let some _ ← accept? (.punct .leftBrace) then .block <$> p.block c
  else p.exprStmt c

def strictDeclaration (p : Inner) (c : Context) : Parser Stmt := do
  if let some _ ← accept? (.keyword .kwClass) then p.classDecl c
  else if let some _ ← accept? (.keyword .kwFun) then .function <$> p.function c .expectFunctionName
  else if let some _ ← accept? (.keyword .kwVar) then p.varDecl c
  else p.anyStatement c

def anyDeclaration (p : Inner) (c : Context) : Parser (Option Stmt) := recovering (p.strictDeclaration c)

end Inner

mutual

def statement : (bound : Nat) → Context → Parser Stmt
  | 0, _ => exhausted
  | bound + 1, c => Inner.anyStatement ⟨bound, statement bound, declaration bound⟩ c

def declaration : (bound : Nat) → Context → Parser (Option Stmt)
  | 0, _ => exhausted
  | bound + 1, c => Inner.anyDeclaration ⟨bound, statement bound, declaration bound⟩ c

end

def program (bound : Nat) : (count : Nat) → Parser (List Stmt)
  | 0 => exhausted
  | count + 1 => do
    if ← atEnd then return []
    let first ← declaration bound {}
    let others ← program bound count
    return first.toList ++ others

end Lox.Parser
