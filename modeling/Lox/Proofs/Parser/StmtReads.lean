import Lox.Proofs.Grammar.Stmt
import Lox.Proofs.Parser.ExprComplete

/-! How the parser of statements gets through the tokens of a statement once its parts can be read. -/
namespace Lox.Parser

open Grammar

def innerAt (b : Nat) : Inner := ⟨b, statement b, declaration b⟩

structure Context.Widens (c c' : Context) : Prop where
  inFunction : c'.inFunction = c.inFunction
  inClass : c'.inClass = c.inClass
  inLoop : c.inLoop = true → c'.inLoop = true

theorem widens_refl (c : Context) : c.Widens c := ⟨rfl, rfl, id⟩

theorem widens_loop (c : Context) : c.Widens c.enterLoop := ⟨rfl, rfl, fun _ => rfl⟩

/-- What may stand in a context may stand in every wider one. -/
theorem widens_trans {c c' c'' : Context} (h : c.Widens c') (h' : c'.Widens c'') : c.Widens c'' :=
  ⟨h'.inFunction.trans h.inFunction, h'.inClass.trans h.inClass, fun hl => h'.inLoop (h.inLoop hl)⟩

theorem widens_enterLoop {c c' : Context} (h : c.Widens c') : c.enterLoop.Widens c'.enterLoop :=
  ⟨h.inFunction, h.inClass, id⟩

theorem widens_enterClass {c c' : Context} (h : c.Widens c') : c.enterClass.Widens c'.enterClass :=
  ⟨h.inFunction, rfl, h.inLoop⟩

theorem widens_enterFunction {c c' : Context} (h : c.Widens c') : c.enterFunction.Widens c'.enterFunction :=
  ⟨rfl, h.inClass, id⟩

variable {c c' : Context} {b : Nat} {ts us vs ws rest : List Token}

/-- An expression is read up to a token that cannot continue it. -/
theorem reads_expression_before {e : Expr} {l : Lexeme} {p : Pos} (hw : c.Widens c')
    (h : Spells c.inClass .assignment e ts) (hj : joins? l = none) (hb : ts.length + rest.length + 3 ≤ b) :
    Reads ((innerAt b).expression c') ts (⟨l, p⟩ :: rest) [] e := by
  rw [← hw.inClass] at h
  have hlen : ts.length + (⟨l, p⟩ :: rest : List Token).length + 2 ≤ b := by
    rw [List.length_cons]
    omega
  have hread := reads_expression c'.inClass h hlen (stops_of_joins hj)
  rwa [strayThis_of_derives h] at hread

/-- The first token of an expression is not the given one. -/
theorem notNext_of_spells {inClass : Bool} {e : Expr} {l : Lexeme} (h : Spells inClass .assignment e ts)
    (hl : startsExpr l = false) (us : List Token) : NotNext l (ts ++ us) := by
  obtain ⟨t, vs, rfl, ht, -⟩ := starts_of_derives h
  exact notNext_of_startsWith ⟨t, vs, rfl, ht⟩ hl us

/-- A missing or present expression before a token that ends it. -/
theorem reads_expressionUnless {e : Option Expr} {l : Lexeme} {p : Pos} (hw : c.Widens c')
    (h : Optional c e ts) (hl : startsExpr l = false) (hj : joins? l = none)
    (hb : ts.length + rest.length + 3 ≤ b) :
    Reads ((innerAt b).expressionUnless c' l) ts (⟨l, p⟩ :: rest) [] e := by
  cases e with
  | none =>
    cases h
    exact leads_nextIs_true (leads_refl _ _)
  | some e =>
    refine leads_nextIs (notNext_of_spells h hl _) (reads_map some ?_)
    exact reads_expression_before hw h hj hb

theorem reads_exprStmt {e : Expr} (p : Pos) (hw : c.Widens c') (h : Spells c.inClass .assignment e ts)
    (hb : ts.length + rest.length + 3 ≤ b) :
    Reads ((innerAt b).exprStmt c') (ts ++ [Punct.semicolon.token p]) rest [] (.expr e) :=
  leads_seq (reads_expression_before hw h rfl hb) (leads_expect (leads_refl _ rest))

theorem reads_varBare (x : Name) (q : Pos) :
    Reads ((innerAt b).varDecl c) [x.token, Punct.semicolon.token q] rest [] (.var x none) := by
  refine leads_expectName x (leads_decline (notNext_cons (by simp)) ?_)
  exact leads_pure_bind (leads_expect (leads_refl _ rest))

theorem reads_varValue {e : Expr} (x : Name) (p q : Pos) (hw : c.Widens c')
    (h : Spells c.inClass .assignment e ts) (hb : ts.length + rest.length + 3 ≤ b) :
    Reads ((innerAt b).varDecl c') (x.token :: Punct.equal.token p :: (ts ++ [Punct.semicolon.token q])) rest []
      (.var x (some e)) := by
  have hread := reads_map some (reads_expression_before (l := .punct .semicolon) (p := q) hw h rfl hb)
  exact leads_expectName x (leads_accept (leads_seq hread (leads_expect (leads_refl _ rest))))

/-- Where a statement stands, a block is read from its opening to its closing brace. -/
theorem reads_block {ss : List Stmt} (q : Pos)
    (h : Reads ((innerAt b).declarations c b) ts (Punct.rightBrace.token q :: rest) [] ss) :
    Reads ((innerAt b).block c) (ts ++ [Punct.rightBrace.token q]) rest [] ss :=
  leads_seq h (leads_expect (leads_refl _ rest))

section keywords

variable {p : Pos} {s : Stmt}

theorem anyStatement_for (h : Reads ((innerAt b).forStmt c) ts rest [] s) :
    Reads ((innerAt b).anyStatement c) (Keyword.kwFor.token p :: ts) rest [] s :=
  leads_accept h

theorem anyStatement_if (h : Reads ((innerAt b).ifStmt c) ts rest [] s) :
    Reads ((innerAt b).anyStatement c) (Keyword.kwIf.token p :: ts) rest [] s :=
  leads_decline (notNext_cons (by simp)) (leads_accept h)

theorem anyStatement_print (h : Reads ((innerAt b).printStmt c) ts rest [] s) :
    Reads ((innerAt b).anyStatement c) (Keyword.kwPrint.token p :: ts) rest [] s :=
  leads_decline (notNext_cons (by simp)) (leads_decline (notNext_cons (by simp)) (leads_accept h))

theorem anyStatement_return (h : Reads ((innerAt b).returnStmt c p) ts rest [] s) :
    Reads ((innerAt b).anyStatement c) (Keyword.kwReturn.token p :: ts) rest [] s := by
  iterate 3 refine leads_decline (notNext_cons (by simp)) ?_
  exact leads_accept h

theorem anyStatement_break (h : Reads (Inner.breakStmt c p) ts rest [] s) :
    Reads ((innerAt b).anyStatement c) (Keyword.kwBreak.token p :: ts) rest [] s := by
  iterate 4 refine leads_decline (notNext_cons (by simp)) ?_
  exact leads_accept h

theorem anyStatement_while (h : Reads ((innerAt b).whileStmt c) ts rest [] s) :
    Reads ((innerAt b).anyStatement c) (Keyword.kwWhile.token p :: ts) rest [] s := by
  iterate 5 refine leads_decline (notNext_cons (by simp)) ?_
  exact leads_accept h

theorem anyStatement_block {ss : List Stmt} (h : Reads ((innerAt b).block c) ts rest [] ss) :
    Reads ((innerAt b).anyStatement c) (Punct.leftBrace.token p :: ts) rest [] (.block ss) := by
  iterate 6 refine leads_decline (notNext_cons (by simp)) ?_
  exact leads_accept (reads_map _ h)

theorem anyStatement_expr (h : Reads ((innerAt b).exprStmt c) ts rest [] s)
    (hn : ∀ l, startsExpr l = false → NotNext l (ts ++ rest)) :
    Reads ((innerAt b).anyStatement c) ts rest [] s := by
  iterate 7 refine leads_decline (hn _ rfl) ?_
  exact h

end keywords

theorem reads_print {e : Expr} (q : Pos) (hw : c.Widens c') (h : Spells c.inClass .assignment e ts)
    (hb : ts.length + rest.length + 3 ≤ b) :
    Reads ((innerAt b).printStmt c') (ts ++ [Punct.semicolon.token q]) rest [] (.print e) :=
  leads_seq (reads_expression_before hw h rfl hb) (leads_expect (leads_refl _ rest))

/-- A return is read in a function only. -/
theorem reads_return {e : Option Expr} (p q : Pos) (hw : c.Widens c') (hf : c.inFunction = true)
    (h : Optional c e ts) (hb : ts.length + rest.length + 3 ≤ b) :
    Reads ((innerAt b).returnStmt c' p) (ts ++ [Punct.semicolon.token q]) rest [] (.returnValue p e) := by
  unfold Inner.returnStmt
  rw [hw.inFunction, hf]
  exact leads_seq (reads_expressionUnless hw h rfl rfl hb) (leads_expect (leads_refl _ rest))

/-- A break is read in a loop only. -/
theorem reads_break (p q : Pos) (hw : c.Widens c') (hl : c.inLoop = true) :
    Reads (Inner.breakStmt c' p) [Punct.semicolon.token q] rest [] (.breakLoop p) := by
  unfold Inner.breakStmt
  rw [hw.inLoop hl]
  exact leads_expect (leads_refl _ rest)

def ReadsStatement (b : Nat) (c : Context) (ts rest : List Token) : Prop :=
  ∃ s, Reads ((innerAt b).statement c) ts rest [] s

/-- A loop is read if its body is. -/
theorem reads_while {e : Expr} (p q : Pos) (hw : c.Widens c') (h : Spells c.inClass .assignment e ts)
    (hb : ts.length + us.length + rest.length + 3 ≤ b) (hbody : ReadsStatement b c'.enterLoop us rest) :
    ∃ s, Reads ((innerAt b).whileStmt c')
      (Punct.leftParen.token p :: (ts ++ Punct.rightParen.token q :: us)) rest [] s := by
  obtain ⟨body, hbody⟩ := hbody
  have hlen : ts.length + (us ++ rest).length + 3 ≤ b := by
    rw [List.length_append]
    omega
  have htest := reads_expression_before (l := .punct .rightParen) (p := q) hw h rfl hlen
  refine ⟨.whileLoop e body, leads_expect (leads_seq htest (leads_expect ?_))⟩
  exact leads_bind_last hbody (leads_refl _ rest)

/-- A conditional whose first branch is not followed by an `else`. -/
theorem reads_if {e : Expr} (p q : Pos) (hw : c.Widens c') (h : Spells c.inClass .assignment e ts)
    (hb : ts.length + us.length + rest.length + 3 ≤ b) (hyes : ReadsStatement b c' us rest)
    (hn : NotNext (.keyword .kwElse) rest) :
    ∃ s, Reads ((innerAt b).ifStmt c')
      (Punct.leftParen.token p :: (ts ++ Punct.rightParen.token q :: us)) rest [] s := by
  obtain ⟨yes, hyes⟩ := hyes
  have hlen : ts.length + (us ++ rest).length + 3 ≤ b := by
    rw [List.length_append]
    omega
  have htest := reads_expression_before (l := .punct .rightParen) (p := q) hw h rfl hlen
  refine ⟨.ifThen e yes none, leads_expect (leads_seq htest (leads_expect (leads_bind_last hyes ?_)))⟩
  exact leads_decline hn (leads_pure_bind (leads_refl _ rest))

/-- A conditional is read if both branches are, the first of them before an `else`. -/
theorem reads_ifElse {e : Expr} (p q r : Pos) (hw : c.Widens c') (h : Spells c.inClass .assignment e ts)
    (hb : ts.length + us.length + vs.length + rest.length + 4 ≤ b)
    (hyes : ReadsStatement b c' us (Keyword.kwElse.token r :: vs ++ rest)) (hno : ReadsStatement b c' vs rest) :
    ∃ s, Reads ((innerAt b).ifStmt c')
      (Punct.leftParen.token p :: (ts ++ Punct.rightParen.token q :: (us ++ Keyword.kwElse.token r :: vs)))
      rest [] s := by
  obtain ⟨yes, hyes⟩ := hyes
  obtain ⟨no, hno⟩ := hno
  have hlen : ts.length + (us ++ Keyword.kwElse.token r :: vs ++ rest).length + 3 ≤ b := by
    simp only [List.length_cons, List.length_append]
    omega
  have htest := reads_expression_before (l := .punct .rightParen) (p := q) hw h rfl hlen
  refine ⟨.ifThen e yes (some no), leads_expect (leads_seq htest (leads_expect (leads_seq hyes ?_)))⟩
  exact leads_accept (leads_bind_last (reads_map some hno) (leads_refl _ rest))

inductive ReadsStart (b : Nat) (c : Context) (rest : List Token) : List Token → Prop where
  | none (p : Pos) : ReadsStart b c rest [Punct.semicolon.token p]
  | var {ts : List Token} {s : Stmt} (p : Pos) (h : Reads ((innerAt b).varDecl c) ts rest [] s) :
    ReadsStart b c rest (Keyword.kwVar.token p :: ts)
  | expr {ts : List Token} {s : Stmt} (h : Reads ((innerAt b).exprStmt c) ts rest [] s)
    (hn : ∀ l, startsExpr l = false → NotNext l (ts ++ rest)) : ReadsStart b c rest ts

/-- A loop with clauses is read if its first clause and its body are. -/
theorem reads_for {test step : Option Expr} (p q r : Pos) (hw : c.Widens c')
    (hs : ReadsStart b c' (us ++ Punct.semicolon.token q :: (vs ++ Punct.rightParen.token r :: ws) ++ rest) ts)
    (ht : Optional c test us) (he : Optional c step vs)
    (hb : us.length + vs.length + ws.length + rest.length + 4 ≤ b)
    (hbody : ReadsStatement b c'.enterLoop ws rest) :
    ∃ s, Reads ((innerAt b).forStmt c')
      (Punct.leftParen.token p ::
        (ts ++ (us ++ Punct.semicolon.token q :: (vs ++ Punct.rightParen.token r :: ws)))) rest [] s := by
  obtain ⟨body, hbody⟩ := hbody
  have htest : us.length + ((vs ++ Punct.rightParen.token r :: ws) ++ rest).length + 3 ≤ b := by
    simp only [List.length_cons, List.length_append]
    omega
  have hstep : vs.length + (ws ++ rest).length + 3 ≤ b := by
    rw [List.length_append]
    omega
  -- what follows the first clause is read in the same way whatever that clause was
  have hclauses (start : Option Stmt) : Reads (do
      let test ← (innerAt b).expressionUnless c' (.punct .semicolon)
      let _ ← expect (.punct .semicolon) .expectSemicolonAfterCondition
      let step ← (innerAt b).expressionUnless c' (.punct .rightParen)
      let _ ← expect (.punct .rightParen) .expectParenAfterClauses
      let body ← (innerAt b).statement c'.enterLoop
      return Stmt.forLoop start test step body)
      (us ++ Punct.semicolon.token q :: (vs ++ Punct.rightParen.token r :: ws)) rest []
      (Stmt.forLoop start test step body) := by
    refine leads_seq (reads_expressionUnless hw ht rfl rfl htest) (leads_expect ?_)
    refine leads_seq (reads_expressionUnless hw he rfl rfl hstep) (leads_expect ?_)
    exact leads_bind_last hbody (leads_refl _ rest)
  cases hs with
  | none w => exact ⟨_, leads_expect (leads_accept (leads_pure_bind (hclauses none)))⟩
  | @var _ s w h =>
    refine ⟨.forLoop (some s) test step body, leads_expect (leads_decline (notNext_cons (by simp)) ?_)⟩
    exact leads_accept (leads_seq (reads_map some h) (hclauses _))
  | @expr _ s h hn =>
    rw [← List.append_assoc] at hn
    refine ⟨.forLoop (some s) test step body, leads_expect (leads_decline (hn _ rfl) (leads_decline (hn _ rfl) ?_))⟩
    exact leads_seq (reads_map some h) (hclauses _)

end Lox.Parser
