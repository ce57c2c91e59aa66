import Lox.Proofs.Grammar.Stmt

/-! Statements that are no declarations. They bind no name in the frame that they are run in; what a block binds is
bound in a frame of its own. Bodies of loops and branches of conditionals are always of this kind. -/
namespace Lox

open Grammar
open Lox.Parser (Context)

namespace Stmt

mutual

def Plain : Stmt → Prop
  | .expr _ | .print _ | .block _ | .returnValue _ _ | .breakLoop _ => True
  | .ifThen _ yes no => yes.Plain ∧ PlainOption no
  | .whileLoop _ body => body.Plain
  | .var _ _ | .function _ | .classDecl _ _ => False
termination_by structural s => s

def PlainOption : Option Stmt → Prop
  | none => True
  | some s => s.Plain
termination_by structural s => s

end

/-- A loop with clauses binds its names in frames of its own. -/
theorem forLoop_plain {start : Option Stmt} {test step : Option Expr} {body : Stmt} (hb : body.Plain) :
    (forLoop start test step body).Plain := by
  cases start with
  | some s => trivial
  | none =>
    cases step with
    | some e => trivial
    | none => exact hb

end Stmt

def Grammar.Construct.Plain : Construct → Prop
  | .exprStmt s | .simple s | .stmt s => s.Plain
  | .varDecl _ | .start _ | .decl _ | .decls _ | .function _ | .methods _ => True

/-- What the rules call a statement binds no name, by induction on the derivation. -/
theorem plain_of_forms {c : Context} {construct : Construct} {ts : List Token} (h : Forms c construct ts) :
    construct.Plain := by
  induction h with
  | exprStmt | print | returnValue | breakLoop | block => trivial
  | expr _ ih | simple _ ih => exact ih
  | ifThen p q r _ _ ih => exact ⟨ih, trivial⟩
  | ifElse p q r w _ _ _ ihy ihn => exact ⟨ihy, ihn⟩
  | whileLoop p q r _ _ ih => exact ih
  | forLoop p q r w _ _ _ _ _ ihb => exact Stmt.forLoop_plain ihb
  | varBare | varValue | noStart | startVar | startExpr | stmt | varDecl | function | classDecl => trivial
  | noDecls | moreDecls | routine | noMethods | moreMethods => trivial

end Lox
