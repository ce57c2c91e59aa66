import Lox.Parser.Stmt
import Lox.Proofs.Grammar.Follow

/-! The grammar of statements and declarations, with the conditions on where they may stand. A loop with clauses
spells the tree that stands for it. The rules leave open to which conditional an `else` belongs. -/
namespace Lox.Grammar

open Lox.Parser (Context)

def Optional (c : Context) : Option Expr → List Token → Prop
  | none, ts => ts = []
  | some e, ts => Spells c.inClass .assignment e ts

def Named (x : Name) (ts : List Token) : Prop := ts = [x.token]

/-- What is formed: a statement that ends with a token of its own, any statement, a declaration or a sequence of
them, a function from its name on, or methods. The start of a loop may be empty. -/
inductive Construct where
  | exprStmt (s : Stmt)
  | varDecl (s : Stmt)
  | simple (s : Stmt)
  | start (s : Option Stmt)
  | stmt (s : Stmt)
  | decl (s : Stmt)
  | decls (ss : List Stmt)
  | function (d : FunctionDecl)
  | methods (ds : List FunctionDecl)

/-- The rules of statements in a context. The bodies and branches of loops and conditionals are statements and
not declarations. -/
inductive Forms : Context → Construct → List Token → Prop where
  | exprStmt {c : Context} {e : Expr} {ts : List Token} (p : Pos) (he : Spells c.inClass .assignment e ts) :
    Forms c (.exprStmt (.expr e)) (ts ++ [Punct.semicolon.token p])
  | varBare {c : Context} (x : Name) (p q : Pos) :
    Forms c (.varDecl (.var x none)) [Keyword.kwVar.token p, x.token, Punct.semicolon.token q]
  | varValue {c : Context} {e : Expr} {ts : List Token} (x : Name) (p q r : Pos)
    (he : Spells c.inClass .assignment e ts) :
    Forms c (.varDecl (.var x (some e)))
      (Keyword.kwVar.token p :: x.token :: Punct.equal.token q :: ts ++ [Punct.semicolon.token r])
  | expr {c : Context} {s : Stmt} {ts : List Token} (h : Forms c (.exprStmt s) ts) : Forms c (.simple s) ts
  | print {c : Context} {e : Expr} {ts : List Token} (p q : Pos) (he : Spells c.inClass .assignment e ts) :
    Forms c (.simple (.print e)) (Keyword.kwPrint.token p :: ts ++ [Punct.semicolon.token q])
  | returnValue {c : Context} {e : Option Expr} {ts : List Token} (p q : Pos) (hc : c.inFunction = true)
    (he : Optional c e ts) :
    Forms c (.simple (.returnValue p e)) (Keyword.kwReturn.token p :: ts ++ [Punct.semicolon.token q])
  | breakLoop {c : Context} (p q : Pos) (hc : c.inLoop = true) :
    Forms c (.simple (.breakLoop p)) [Keyword.kwBreak.token p, Punct.semicolon.token q]
  | block {c : Context} {ss : List Stmt} {ts : List Token} (p q : Pos) (h : Forms c (.decls ss) ts) :
    Forms c (.simple (.block ss)) (Punct.leftBrace.token p :: ts ++ [Punct.rightBrace.token q])
  | noStart {c : Context} (p : Pos) : Forms c (.start none) [Punct.semicolon.token p]
  | startVar {c : Context} {s : Stmt} {ts : List Token} (h : Forms c (.varDecl s) ts) :
    Forms c (.start (some s)) ts
  | startExpr {c : Context} {s : Stmt} {ts : List Token} (h : Forms c (.exprStmt s) ts) :
    Forms c (.start (some s)) ts
  | simple {c : Context} {s : Stmt} {ts : List Token} (h : Forms c (.simple s) ts) : Forms c (.stmt s) ts
  | ifThen {c : Context} {e : Expr} {yes : Stmt} {ts us : List Token} (p q r : Pos)
    (he : Spells c.inClass .assignment e ts) (hy : Forms c (.stmt yes) us) :
    Forms c (.stmt (.ifThen e yes none))
      (Keyword.kwIf.token p :: Punct.leftParen.token q :: ts ++ Punct.rightParen.token r :: us)
  | ifElse {c : Context} {e : Expr} {yes no : Stmt} {ts us vs : List Token} (p q r w : Pos)
    (he : Spells c.inClass .assignment e ts) (hy : Forms c (.stmt yes) us) (hn : Forms c (.stmt no) vs) :
    Forms c (.stmt (.ifThen e yes (some no)))
      (Keyword.kwIf.token p :: Punct.leftParen.token q :: ts ++ Punct.rightParen.token r :: us ++
        Keyword.kwElse.token w :: vs)
  | whileLoop {c : Context} {e : Expr} {body : Stmt} {ts us : List Token} (p q r : Pos)
    (he : Spells c.inClass .assignment e ts) (hb : Forms c.enterLoop (.stmt body) us) :
    Forms c (.stmt (.whileLoop e body))
      (Keyword.kwWhile.token p :: Punct.leftParen.token q :: ts ++ Punct.rightParen.token r :: us)
  | forLoop {c : Context} {start : Option Stmt} {test step : Option Expr} {body : Stmt}
    {ts us vs ws : List Token} (p q r w : Pos) (hs : Forms c (.start start) ts) (ht : Optional c test us)
    (he : Optional c step vs) (hb : Forms c.enterLoop (.stmt body) ws) :
    Forms c (.stmt (.forLoop start test step body))
      (Keyword.kwFor.token p :: Punct.leftParen.token q :: ts ++ us ++ Punct.semicolon.token r :: vs ++
        Punct.rightParen.token w :: ws)
  | stmt {c : Context} {s : Stmt} {ts : List Token} (h : Forms c (.stmt s) ts) : Forms c (.decl s) ts
  | varDecl {c : Context} {s : Stmt} {ts : List Token} (h : Forms c (.varDecl s) ts) : Forms c (.decl s) ts
  | function {c : Context} {d : FunctionDecl} {ts : List Token} (p : Pos) (h : Forms c (.function d) ts) :
    Forms c (.decl (.function d)) (Keyword.kwFun.token p :: ts)
  | classDecl {c : Context} {ds : List FunctionDecl} {ts : List Token} (x : Name) (p q r : Pos)
    (h : Forms c.enterClass (.methods ds) ts) :
    Forms c (.decl (.classDecl x ds))
      (Keyword.kwClass.token p :: x.token :: Punct.leftBrace.token q :: ts ++ [Punct.rightBrace.token r])
  | noDecls {c : Context} : Forms c (.decls []) []
  | moreDecls {c : Context} {s : Stmt} {ss : List Stmt} {ts us : List Token} (h : Forms c (.decl s) ts)
    (hs : Forms c (.decls ss) us) : Forms c (.decls (s :: ss)) (ts ++ us)
  | routine {c : Context} {params : List Name} {body : List Stmt} {ts us : List Token} (x : Name) (p q r w : Pos)
    (hp : Listed Named params ts) (hb : Forms c.enterFunction (.decls body) us) :
    Forms c (.function ⟨x, params, body⟩)
      (x.token :: Punct.leftParen.token p :: ts ++ Punct.rightParen.token q :: Punct.leftBrace.token r :: us ++
        [Punct.rightBrace.token w])
  | noMethods {c : Context} : Forms c (.methods []) []
  | moreMethods {c : Context} {d : FunctionDecl} {ds : List FunctionDecl} {ts us : List Token}
    (h : Forms c (.function d) ts) (hs : Forms c (.methods ds) us) : Forms c (.methods (d :: ds)) (ts ++ us)

def startsStmt (l : Lexeme) : Bool :=
  startsExpr l || l ∈ [.keyword .kwFor, .keyword .kwIf, .keyword .kwPrint, .keyword .kwReturn, .keyword .kwBreak,
    .keyword .kwWhile, .punct .leftBrace]

def startsDecl (l : Lexeme) : Bool :=
  startsStmt l || l ∈ [.keyword .kwClass, .keyword .kwFun, .keyword .kwVar]

def Opens : Construct → List Token → Prop
  | .exprStmt _, ts => StartsWith startsExpr ts
  | .varDecl _, ts => StartsWith (· = .keyword .kwVar) ts
  | .simple _, ts => StartsWith startsStmt ts
  | .stmt _, ts => StartsWith startsStmt ts
  | .decl _, ts => StartsWith startsDecl ts
  | .function d, ts => StartsWith (· = .identifier d.name.text) ts
  | .start _, _ | .decls _, _ | .methods _, _ => True

/-- A construct starts as its rules say. -/
theorem opens_of_forms {c : Context} {k : Construct} {ts : List Token} (h : Forms c k ts) : Opens k ts := by
  induction h with
  | exprStmt p he =>
    obtain ⟨t, us, rfl, ht, -⟩ := starts_of_derives he
    exact ⟨t, _, rfl, ht⟩
  | varBare | varValue => exact ⟨_, _, rfl, rfl⟩
  | print | returnValue | breakLoop | block => exact ⟨_, _, rfl, rfl⟩
  | ifThen | ifElse | whileLoop | forLoop => exact ⟨_, _, rfl, rfl⟩
  | function | classDecl => exact ⟨_, _, rfl, rfl⟩
  | routine => exact ⟨_, _, rfl, decide_eq_true rfl⟩
  | expr _ ih =>
    obtain ⟨t, us, rfl, ht⟩ := ih
    exact ⟨t, us, rfl, by rw [startsStmt, ht, Bool.true_or]⟩
  | simple _ ih => exact ih
  | stmt _ ih =>
    obtain ⟨t, us, rfl, ht⟩ := ih
    exact ⟨t, us, rfl, by rw [startsDecl, ht, Bool.true_or]⟩
  | varDecl _ ih =>
    obtain ⟨t, us, rfl, ht⟩ := ih
    refine ⟨t, us, rfl, ?_⟩
    rw [of_decide_eq_true ht]
    rfl
  | noStart | startVar | startExpr | noDecls | moreDecls | noMethods | moreMethods => trivial

end Lox.Grammar
