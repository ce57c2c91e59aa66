import Lox.Proofs.Grammar.Stmt

/-! Places between two declarations, at the top or inside of blocks and of the bodies of functions and methods, however
deep. A place cuts the tokens in two: those before it and those after it. Where the rules leave open to which
conditional an `else` belongs, a place has it belong to the nearest one that can take it. -/
namespace Lox.Grammar

open Lox.Parser (Context)

inductive Region where
  | stmt
  | decl
  | decls
  | function
  | methods

def Formed (c : Context) : Region → List Token → Prop
  | .stmt, ts => ∃ s, Forms c (.stmt s) ts
  | .decl, ts => ∃ s, Forms c (.decl s) ts
  | .decls, ts => ∃ ss, Forms c (.decls ss) ts
  | .function, ts => ∃ d, Forms c (.function d) ts
  | .methods, ts => ∃ ds, Forms c (.methods ds) ts

/-- With an `else` and another branch behind them the tokens would still be one statement. -/
def TakesElse (c : Context) (ts : List Token) : Prop :=
  ∃ w vs, Formed c .stmt (ts ++ Keyword.kwElse.token w :: vs)

/-- A place in a region that stands in the context `c`. What is put there stands in the context `c'`. -/
inductive Place : Context → Region → List Token → List Token → Context → Prop where
  | here {c : Context} {before after : List Token} (hb : Formed c .decls before) (ha : Formed c .decls after) :
    Place c .decls before after c
  | amid {c c' : Context} {us before after vs : List Token} (hu : Formed c .decls us)
    (h : Place c .decl before after c') (hv : Formed c .decls vs) :
    Place c .decls (us ++ before) (after ++ vs) c'
  | stmt {c c' : Context} {before after : List Token} (h : Place c .stmt before after c') :
    Place c .decl before after c'
  | function {c c' : Context} {before after : List Token} (p : Pos) (h : Place c .function before after c') :
    Place c .decl (Keyword.kwFun.token p :: before) after c'
  | classDecl {c c' : Context} {before after : List Token} (x : Name) (p q r : Pos)
    (h : Place c.enterClass .methods before after c') :
    Place c .decl (Keyword.kwClass.token p :: x.token :: Punct.leftBrace.token q :: before)
      (after ++ [Punct.rightBrace.token r]) c'
  | routine {c c' : Context} {params : List Name} {ts before after : List Token} (x : Name) (p q r w : Pos)
    (hp : Listed Named params ts) (h : Place c.enterFunction .decls before after c') :
    Place c .function
      (x.token :: Punct.leftParen.token p :: ts ++ Punct.rightParen.token q :: Punct.leftBrace.token r :: before)
      (after ++ [Punct.rightBrace.token w]) c'
  | method {c c' : Context} {us before after vs : List Token} (hu : Formed c .methods us)
    (h : Place c .function before after c') (hv : Formed c .methods vs) :
    Place c .methods (us ++ before) (after ++ vs) c'
  | block {c c' : Context} {before after : List Token} (p q : Pos) (h : Place c .decls before after c') :
    Place c .stmt (Punct.leftBrace.token p :: before) (after ++ [Punct.rightBrace.token q]) c'
  | ifThen {c c' : Context} {e : Expr} {ts before after : List Token} (p q r : Pos)
    (he : Spells c.inClass .assignment e ts) (h : Place c .stmt before after c') :
    Place c .stmt (Keyword.kwIf.token p :: Punct.leftParen.token q :: ts ++ Punct.rightParen.token r :: before)
      after c'
  | thenBranch {c c' : Context} {e : Expr} {ts before after vs : List Token} (p q r w : Pos)
    (he : Spells c.inClass .assignment e ts) (h : Place c .stmt before after c')
    (hy : ¬ TakesElse c (before ++ after)) (hn : Formed c .stmt vs) :
    Place c .stmt (Keyword.kwIf.token p :: Punct.leftParen.token q :: ts ++ Punct.rightParen.token r :: before)
      (after ++ Keyword.kwElse.token w :: vs) c'
  | elseBranch {c c' : Context} {e : Expr} {ts us before after : List Token} (p q r w : Pos)
    (he : Spells c.inClass .assignment e ts) (hu : Formed c .stmt us) (hy : ¬ TakesElse c us)
    (h : Place c .stmt before after c') :
    Place c .stmt
      (Keyword.kwIf.token p :: Punct.leftParen.token q :: ts ++ Punct.rightParen.token r :: us ++
        Keyword.kwElse.token w :: before)
      after c'
  | whileLoop {c c' : Context} {e : Expr} {ts before after : List Token} (p q r : Pos)
    (he : Spells c.inClass .assignment e ts) (h : Place c.enterLoop .stmt before after c') :
    Place c .stmt (Keyword.kwWhile.token p :: Punct.leftParen.token q :: ts ++ Punct.rightParen.token r :: before)
      after c'
  | forLoop {c c' : Context} {start : Option Stmt} {test step : Option Expr} {ts us vs before after : List Token}
    (p q r w : Pos) (hs : Forms c (.start start) ts) (ht : Optional c test us) (he : Optional c step vs)
    (h : Place c.enterLoop .stmt before after c') :
    Place c .stmt
      (Keyword.kwFor.token p :: Punct.leftParen.token q :: ts ++ us ++ Punct.semicolon.token r :: vs ++
        Punct.rightParen.token w :: before)
      after c'

variable {c c' : Context} {region : Region} {us vs before after : List Token}

theorem formed_decls_append (hu : Formed c .decls us) (hv : Formed c .decls vs) : Formed c .decls (us ++ vs) := by
  obtain ⟨ss, hu⟩ := hu
  obtain ⟨ss', hv⟩ := hv
  generalize hk : Construct.decls ss = k at hu
  induction hu generalizing ss with
  | noDecls => exact ⟨ss', hv⟩
  | @moreDecls _ s ss ts us h _ _ ihs =>
    obtain ⟨rest, hrest⟩ := ihs _ hv rfl
    exact ⟨s :: rest, by rw [List.append_assoc]; exact .moreDecls h hrest⟩
  | _ => cases hk

theorem formed_methods_append (hu : Formed c .methods us) (hv : Formed c .methods vs) :
    Formed c .methods (us ++ vs) := by
  obtain ⟨ds, hu⟩ := hu
  obtain ⟨ds', hv⟩ := hv
  generalize hk : Construct.methods ds = k at hu
  induction hu generalizing ds with
  | noMethods => exact ⟨ds', hv⟩
  | @moreMethods _ d ds ts us h _ _ ihs =>
    obtain ⟨rest, hrest⟩ := ihs _ hv rfl
    exact ⟨d :: rest, by rw [List.append_assoc]; exact .moreMethods h hrest⟩
  | _ => cases hk

/-- Without anything put into it, a place does not show. -/
theorem formed_of_place (h : Place c region before after c') : Formed c region (before ++ after) := by
  -- on the way down to the place: each rule is applied again to what the hypothesis gives for its part
  induction h with
  | here hb ha => exact formed_decls_append hb ha
  | @amid _ _ us before after vs hu _ hv ih =>
    obtain ⟨s, hs⟩ := ih
    obtain ⟨ss, hv⟩ := hv
    have hmore := formed_decls_append hu ⟨_, .moreDecls hs hv⟩
    simpa only [List.append_assoc] using hmore
  | stmt _ ih => exact ih.imp fun _ hs => .stmt hs
  | function p _ ih =>
    obtain ⟨d, hd⟩ := ih
    exact ⟨_, .function p hd⟩
  | classDecl x p q r _ ih =>
    obtain ⟨ds, hds⟩ := ih
    exact ⟨_, by simpa only [List.cons_append, List.append_assoc] using Forms.classDecl x p q r hds⟩
  | routine x p q r w hp _ ih =>
    obtain ⟨ss, hss⟩ := ih
    exact ⟨_, by simpa only [List.cons_append, List.append_assoc] using Forms.routine x p q r w hp hss⟩
  | method hu _ hv ih =>
    obtain ⟨d, hd⟩ := ih
    obtain ⟨ds, hv⟩ := hv
    have hmore := formed_methods_append hu ⟨_, .moreMethods hd hv⟩
    simpa only [List.append_assoc] using hmore
  | block p q _ ih =>
    obtain ⟨ss, hss⟩ := ih
    exact ⟨_, by simpa only [List.cons_append, List.append_assoc] using Forms.simple (.block p q hss)⟩
  | ifThen p q r he _ ih =>
    obtain ⟨s, hs⟩ := ih
    exact ⟨_, by simpa only [List.cons_append, List.append_assoc] using Forms.ifThen p q r he hs⟩
  | thenBranch p q r w he _ _ hn ih =>
    obtain ⟨s, hs⟩ := ih
    obtain ⟨no, hn⟩ := hn
    exact ⟨_, by simpa only [List.cons_append, List.append_assoc] using Forms.ifElse p q r w he hs hn⟩
  | elseBranch p q r w he hu _ _ ih =>
    obtain ⟨s, hs⟩ := ih
    obtain ⟨yes, hu⟩ := hu
    exact ⟨_, by simpa only [List.cons_append, List.append_assoc] using Forms.ifElse p q r w he hu hs⟩
  | whileLoop p q r he _ ih =>
    obtain ⟨s, hs⟩ := ih
    exact ⟨_, by simpa only [List.cons_append, List.append_assoc] using Forms.whileLoop p q r he hs⟩
  | forLoop p q r w hstart ht he _ ih =>
    obtain ⟨s, hs⟩ := ih
    exact ⟨_, by simpa only [List.cons_append, List.append_assoc] using Forms.forLoop p q r w hstart ht he hs⟩

/-- A statement that ends with one that can take an `else` can take it, too. -/
theorem takesElse_of_last (hf : ∀ ws, Formed c' .stmt (vs ++ ws) → Formed c .stmt (us ++ (vs ++ ws)))
    (h : TakesElse c' vs) : TakesElse c (us ++ vs) := by
  obtain ⟨w, ws, h⟩ := h
  refine ⟨w, ws, ?_⟩
  rw [List.append_assoc]
  exact hf _ h

/-- A conditional without an `else` can take one. -/
theorem takesElse_ifThen {e : Expr} {ts : List Token} (p q r : Pos) (he : Spells c.inClass .assignment e ts)
    (h : Formed c .stmt us) :
    TakesElse c (Keyword.kwIf.token p :: Punct.leftParen.token q :: ts ++ Punct.rightParen.token r :: us) := by
  obtain ⟨s, hs⟩ := h
  have hempty : Forms c (.stmt (.block [])) [Punct.leftBrace.token p, Punct.rightBrace.token p] :=
    .simple (.block p p .noDecls)
  exact ⟨p, _, _, Forms.ifElse p q r p he hs hempty⟩

end Lox.Grammar
