import Lox.Proofs.Parser.Acceptance
import Lox.Proofs.Static.Scope

/-! Statements and what must be around them. In a valid program each break stands in a loop of its own function,
each return in a function and each `this` in a class. -/
namespace Lox

open Grammar
open Lox.Parser (Context)

namespace Stmt

mutual

def Placed (c : Context) : Stmt → Prop
  | .expr e => e.Names (fun _ => True) (c.inClass = true)
  | .print e => e.Names (fun _ => True) (c.inClass = true)
  | .var _ v => Expr.NamesOption (fun _ => True) (c.inClass = true) v
  | .block ss => PlacedAll c ss
  | .ifThen test yes no =>
    test.Names (fun _ => True) (c.inClass = true) ∧ yes.Placed c ∧ PlacedOption c no
  | .whileLoop test body => test.Names (fun _ => True) (c.inClass = true) ∧ body.Placed c.enterLoop
  | .function d => PlacedBody c.enterFunction d
  | .returnValue _ v => c.inFunction = true ∧ Expr.NamesOption (fun _ => True) (c.inClass = true) v
  | .breakLoop _ => c.inLoop = true
  | .classDecl _ ds => PlacedBodies c.enterClass.enterFunction ds

def PlacedAll (c : Context) : List Stmt → Prop
  | [] => True
  | s :: ss => s.Placed c ∧ PlacedAll c ss

def PlacedOption (c : Context) : Option Stmt → Prop
  | none => True
  | some s => s.Placed c

def PlacedBody (c : Context) : FunctionDecl → Prop
  | ⟨_, _, body⟩ => PlacedAll c body

def PlacedBodies (c : Context) : List FunctionDecl → Prop
  | [] => True
  | d :: ds => PlacedBody c d ∧ PlacedBodies c ds

end

theorem placedBody_iff {c : Context} {d : FunctionDecl} : PlacedBody c d ↔ PlacedAll c d.body := by
  cases d
  exact Iff.rfl

theorem placedBody_of_mem {c : Context} {d : FunctionDecl} {ds : List FunctionDecl} (h : PlacedBodies c ds)
    (hd : d ∈ ds) : PlacedBody c d := by
  induction ds with
  | nil => cases hd
  | cons d' ds ih =>
    rcases List.mem_cons.mp hd with rfl | hd
    · exact h.1
    · exact ih h.2 hd

end Stmt

def Grammar.Phrase.Placed (inClass : Bool) : Phrase → Prop
  | .expr _ e => e.Names (fun _ => True) (inClass = true)
  | .args es => Expr.NamesAll (fun _ => True) (inClass = true) es
  | .items es => Expr.NamesAll (fun _ => True) (inClass = true) es

/-- A `this` that the rules derive has a class around it. -/
theorem phrase_placed {inClass : Bool} {phrase : Phrase} {ts : List Token} (h : Derives inClass phrase ts) :
    phrase.Placed inClass := by
  induction h with
  | literalNil | literalTrue | literalFalse | literalNumber | literalString | name | noArgs => trivial
  -- the rule for `this` is the only one that asks for a class
  | this p h => exact h
  | group p q _ ih => exact ih
  | call p paren _ _ _ ihf ihes => exact ⟨ihf, ihes⟩
  | get p x _ ih => exact ih
  | unary op p _ ih => exact ih
  | binary op p _ _ ihl ihr => exact ⟨ihl, ihr⟩
  | logical op p _ _ ihl ihr => exact ⟨ihl, ihr⟩
  | assign x p _ ih => exact ⟨trivial, ih⟩
  | set x p q _ _ iho ihv => exact ⟨iho, ihv⟩
  | tighter _ ih => exact ih
  | args _ ih => exact ih
  | item _ ih => exact ⟨ih, trivial⟩
  | moreItems p _ _ ihe ihes => exact ⟨ihe, ihes⟩

theorem names_of_spells {inClass : Bool} {e : Expr} {ts : List Token} (h : Spells inClass .assignment e ts) :
    e.Names (fun _ => True) (inClass = true) :=
  phrase_placed h

theorem names_of_optional {c : Context} {e : Option Expr} {ts : List Token} (h : Optional c e ts) :
    Expr.NamesOption (fun _ => True) (c.inClass = true) e := by
  cases e with
  | none => trivial
  | some e => exact names_of_spells h

/-- A loop with clauses may stand where its clauses may; its body stands in a loop. -/
theorem forLoop_placed {c : Context} {start : Option Stmt} {test step : Option Expr} {body : Stmt}
    (hs : Stmt.PlacedOption c start) (ht : Expr.NamesOption (fun _ => True) (c.inClass = true) test)
    (he : Expr.NamesOption (fun _ => True) (c.inClass = true) step) (hb : body.Placed c.enterLoop) :
    (Stmt.forLoop start test step body).Placed c := by
  have htest : (test.getD (.literal (.bool true))).Names (fun _ => True) (c.inClass = true) := by
    cases test with
    | none => trivial
    | some e => exact ht
  -- the loop is built from other statements, by which clauses it has
  cases start with
  | none =>
    cases step with
    | none => exact ⟨htest, hb⟩
    | some e => exact ⟨htest, hb, he, trivial⟩
  | some s =>
    cases step with
    | none => exact ⟨hs, ⟨htest, hb⟩, trivial⟩
    | some e => exact ⟨hs, ⟨htest, hb, he, trivial⟩, trivial⟩

def Grammar.Construct.Placed (c : Context) : Construct → Prop
  | .exprStmt s | .varDecl s | .simple s | .stmt s | .decl s => s.Placed c
  | .start s => Stmt.PlacedOption c s
  | .decls ss => Stmt.PlacedAll c ss
  | .function d => Stmt.PlacedBody c.enterFunction d
  | .methods ds => Stmt.PlacedBodies c.enterFunction ds

/-- Whatever the rules form may stand where it stands, by induction on the derivation. -/
theorem placed_of_forms {c : Context} {construct : Construct} {ts : List Token} (h : Forms c construct ts) :
    construct.Placed c := by
  induction h with
  | exprStmt p he => exact names_of_spells he
  | varBare => trivial
  | varValue x p q r he => exact names_of_spells he
  | print p q he => exact names_of_spells he
  | returnValue p q hc he => exact ⟨hc, names_of_optional he⟩
  | breakLoop p q hc => exact hc
  | expr _ ih | block _ _ _ ih | startVar _ ih | startExpr _ ih | simple _ ih => exact ih
  | noStart => trivial
  | ifThen p q r he _ ih => exact ⟨names_of_spells he, ih, trivial⟩
  | ifElse p q r w he _ _ ihy ihn => exact ⟨names_of_spells he, ihy, ihn⟩
  | whileLoop p q r he _ ih => exact ⟨names_of_spells he, ih⟩
  | forLoop p q r w _ ht he _ ihs ihb =>
    exact forLoop_placed ihs (names_of_optional ht) (names_of_optional he) ihb
  | stmt _ ih | varDecl _ ih | function _ _ ih | classDecl _ _ _ _ _ ih => exact ih
  | noDecls | noMethods => trivial
  | moreDecls _ _ ih ihs => exact ⟨ih, ihs⟩
  | routine x p q r w _ _ ih => exact ih
  | moreMethods _ _ ih ihs => exact ⟨ih, ihs⟩

/-- In a valid program, what stands at the top level may stand there. -/
theorem placed_of_isValid {source : Text} (h : (Program.ofSource source).isValid = true) :
    Stmt.PlacedAll {} (Program.ofSource source).stmts :=
  placed_of_forms (Program.forms_ofSource h)

end Lox
